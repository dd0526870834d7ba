import Vnfs.Lib.Xdr
import Vnfs.Core

/-!
Decoding the attributes of a GETATTR reply. The reply is a row of values without any
marks between them: only the list of the attributes asked for tells the decoder what it
reads. An owner or a group whose name has no number here is left out of the result.
-/

namespace Vnfs.Nfs.Metadata

open Xdr List

/-- The attributes an `AttrMask` can ask for, in the order of `FULL_ATTR_IDS`. -/
inductive Field where
  | change | size | namedAttr | fsid | fileid | mode | numlinks | owner | ownerGroup | rawdev
  | spaceUsed | timeAccess | timeMetadata | timeModify
  deriving DecidableEq, Repr

/-- An attribute on the wire. The type is asked for without a bit of the mask. -/
inductive Fattr where
  | type
  | field (field : Field)
  deriving DecidableEq, Repr

abbrev AttrMask := Field → Bool

def Fattr.number : Fattr → Nat
  | .type => 1
  | .field .change => 3
  | .field .size => 4
  | .field .namedAttr => 7
  | .field .fsid => 8
  | .field .fileid => 20
  | .field .mode => 33
  | .field .numlinks => 35
  | .field .owner => 36
  | .field .ownerGroup => 37
  | .field .rawdev => 41
  | .field .spaceUsed => 45
  | .field .timeAccess => 47
  | .field .timeMetadata => 52
  | .field .timeModify => 53

def fullAttrIds : List Fattr :=
  .type :: [Field.change, .size, .namedAttr, .fsid, .fileid, .mode, .numlinks, .owner,
    .ownerGroup, .rawdev, .spaceUsed, .timeAccess, .timeMetadata, .timeModify].map .field

variable (masks : AttrMask)

def requestMaskToAttrList : List Fattr :=
  fullAttrIds.filter fun
    | .type => true
    | .field field => masks field

/-- What `parse_attr_list` reads for an attribute: `read_u32`, `read_u64`, `read_str` and
`read_nfstime`. -/
def Fattr.item : Fattr → Item
  | .type | .field .namedAttr | .field .mode | .field .numlinks => .uint 4
  | .field .change | .field .size | .field .fileid | .field .spaceUsed => .uint 8
  | .field .fsid => .both (.uint 8) (.uint 8)
  | .field .owner | .field .ownerGroup => .text
  | .field .rawdev => .both (.uint 4) (.uint 4)
  | .field .timeAccess | .field .timeMetadata | .field .timeModify => .both (.uint 8) (.uint 4)

/-- A value that can stand on the wire for an attribute. -/
def Fattr.Wire (id : Fattr) : Type := {value : id.item.Value // id.item.Fits value}

inductive FieldValue where
  | number (n : Nat)
  | flag (b : Bool)
  | time (seconds : Int) (nanoseconds : Nat)
  deriving DecidableEq, Repr

/-- `AttrValues`: the fields with their `present` bits. What an absent field holds is not
read anywhere. -/
structure AttrValues where
  ftype : Option Nat
  fields : Field → Option FieldValue

def makedev (major minor : Nat) : Nat :=
  (major &&& 0xfffff000) <<< 32 ||| (major &&& 0xfff) <<< 8 |||
    (minor &&& 0xffffff00) <<< 12 ||| (minor &&& 0xff)

def truth (n : Nat) : Bool := n != 0

def fsId (major minor : Nat) : Nat := major <<< 64 ||| minor

def blocks (bytes : Nat) : Nat := bytes / 512

/-- The check and the two's complement of `read_nfstime`. -/
def nfstime (seconds nseconds : Nat) : Option (Option FieldValue) :=
  if nseconds ≥ 1000000000 then none else some (some (.time (Int.bmod seconds (2 ^ 64)) nseconds))

section Decoder

variable (nameToId : Bytes → Bool → Option Nat)

/-- The value of a field; `none` inside for a name without a number, `none` outside where
the list is malformed. -/
def fieldValue : (field : Field) → (Fattr.field field).item.Value → Option (Option FieldValue)
  | .change, n | .size, n | .fileid, n | .mode, n | .numlinks, n => some (some (.number n))
  | .namedAttr, n => some (some (.flag (truth n)))
  | .fsid, fsid => some (some (.number (fsId fsid.1 fsid.2)))
  | .owner, name => some ((nameToId name false).map .number)
  | .ownerGroup, name => some ((nameToId name true).map .number)
  | .rawdev, device => some (some (.number (makedev device.1 device.2)))
  | .spaceUsed, n => some (some (.number (blocks n)))
  | .timeAccess, time | .timeMetadata, time | .timeModify, time => nfstime time.1 time.2

/-- One arm of the `match` of `parse_attr_list`. -/
def store (v : AttrValues) : (id : Fattr) → id.item.Value → Option AttrValues
  | .type, code => some {v with ftype := some (code : Nat)}
  | .field field, value =>
    (fieldValue nameToId field value).map fun x =>
      {v with fields := Function.update v.fields field x}

/-- The loop over the attributes; the bytes behind `off` are the input. -/
def parseAttrs : List Fattr → AttrValues → Bytes → Option (AttrValues × Bytes)
  | [], v, input => some (v, input)
  | id :: ids, v, input =>
    match id.item.read input with
    | none => none
    | some (value, rest) =>
      match store nameToId v id value with
      | none => none
      | some v => parseAttrs ids v rest

def attrDecodeError : VfError := .invalidReply (some 0) "malformed NFS attribute list"

def parseAttrList (ids : List Fattr) (list : Bytes) : VfResult AttrValues :=
  match parseAttrs nameToId ids ⟨none, fun _ => none⟩ list with
  | none => .error attrDecodeError
  | some (v, rest) => if rest.isEmpty then .ok v else .error attrDecodeError

end Decoder

inductive VfType where
  | regular | directory | symlink | blockDevice | charDevice | fifo | socket
  | other (code : Nat)
  deriving DecidableEq, Repr

def fileTypeFromNfs : Nat → VfType
  | 1 => .regular
  | 2 => .directory
  | 5 => .symlink
  | 3 => .blockDevice
  | 4 => .charDevice
  | 7 => .fifo
  | 6 => .socket
  | code => .other code

/-- `s_ifmt` of the type's code; `other` holds none of the seven codes. -/
def sIfmt : VfType → Nat
  | .regular => 0o100000
  | .directory => 0o040000
  | .symlink => 0o120000
  | .blockDevice => 0o060000
  | .charDevice => 0o020000
  | .fifo => 0o010000
  | .socket => 0o140000
  | .other _ => 0

/-- `VfAttrs` without the operand. -/
structure VfAttrs where
  masks : AttrMask
  returned : AttrMask
  ftype : VfType
  fields : Field → FieldValue

/-- What a field becomes: the mode gets the bits of the type. -/
def applied (ftype : VfType) : Field → FieldValue → FieldValue
  | .mode, .number mode => .number (mode ||| sIfmt ftype)
  | _, value => value

def applyAttrs (a : VfAttrs) (v : AttrValues) : VfAttrs :=
  let ftype := (v.ftype.map fileTypeFromNfs).getD .regular
  { a with
    ftype := ftype
    returned := fun field => a.masks field && (v.fields field).isSome
    fields := fun field =>
      if a.masks field then ((v.fields field).map (applied ftype field)).getD (a.fields field)
      else a.fields field }

section Inversion

variable (nameToId : Bytes → Bool → Option Nat) (wire : (id : Fattr) → id.Wire)
  (ids : List Fattr) (v : AttrValues) (field : Field)

/-- The values of the attributes, one behind the other. -/
def encodeList : Bytes := ids.flatMap fun id => id.item.encode (wire id).1

/-- What is read for a field, if the field is well formed. -/
def wireField : Option (Option FieldValue) :=
  fieldValue nameToId field (wire (.field field)).1

def belowSecond (nseconds : Nat) : Bool := nseconds < 10 ^ 9

/-- The nanoseconds of a time are below a second. -/
def subSecond : (id : Fattr) → id.item.Value → Bool
  | .field .timeAccess, time | .field .timeMetadata, time | .field .timeModify, time =>
    belowSecond time.2
  | _, _ => true

def subSeconds : Bool := ids.all fun id => subSecond id (wire id).1

theorem nfstime_isSome (seconds nseconds : Nat) :
    (nfstime seconds nseconds).isSome = belowSecond nseconds := by
  unfold nfstime
  split
  · rename_i hl
    exact (decide_eq_false (Nat.not_lt.mpr hl)).symm
  · rename_i hsm
    exact (decide_eq_true (Nat.not_le.mp hsm)).symm

theorem wireField_isSome :
    (wireField nameToId wire field).isSome = subSecond (.field field) (wire (.field field)).1 := by
  cases field with
  | timeAccess => exact nfstime_isSome _ _
  | timeMetadata => exact nfstime_isSome _ _
  | timeModify => exact nfstime_isSome _ _
  | _ => rfl

/-- The two numbers in a device's number. -/
def devMajor (device : Nat) : Nat := (device >>> 8 &&& 0xfff) ||| (device >>> 32 &&& 0xfffff000)

def devMinor (device : Nat) : Nat := (device &&& 0xff) ||| (device >>> 12 &&& 0xffffff00)

/-- What a field says of the value on the wire. The parts of an identifier and of a device
can be told apart again, a block that is begun does not count, and the seconds are those
of 64 bits with a sign. -/
def Says : (field : Field) → (Fattr.field field).item.Value → Option FieldValue → Prop
  | .change, n, x | .size, n, x | .fileid, n, x | .mode, n, x | .numlinks, n, x =>
    x = some (.number n)
  | .namedAttr, n, x => ∃ flag : Bool, x = some (.flag flag) ∧ (flag = true ↔ n ≠ (0 : Nat))
  | .fsid, fsid, x => ∃ id : Nat, x = some (.number id) ∧ id / 2 ^ 64 = fsid.1 ∧
      id % 2 ^ 64 = fsid.2
  | .owner, name, x => x = (nameToId name false).map .number
  | .ownerGroup, name, x => x = (nameToId name true).map .number
  | .rawdev, device, x => ∃ id : Nat, x = some (.number id) ∧ devMajor id = device.1 ∧
      devMinor id = device.2
  | .spaceUsed, n, x => ∃ count : Nat, x = some (.number count) ∧ count * 512 ≤ n ∧
      Nat.lt n ((count + 1) * 512)
  | .timeAccess, time, x | .timeMetadata, time, x | .timeModify, time, x =>
    ∃ seconds : Int, x = some (.time seconds time.2) ∧ -2 ^ 63 ≤ seconds ∧ seconds < 2 ^ 63 ∧
      (2 ^ 64 : Int) ∣ Nat.cast time.1 - seconds

section Values

variable {major minor : Nat}

theorem truth_iff (n : Nat) : truth n = true ↔ n ≠ 0 := bne_iff_ne

theorem blocks_whole (bytes : Nat) :
    blocks bytes * 512 ≤ bytes ∧ bytes < (blocks bytes + 1) * 512 := by
  unfold blocks
  omega

theorem belowSecond_iff {nseconds : Nat} : belowSecond nseconds = true ↔ nseconds < 10 ^ 9 :=
  decide_eq_true_iff

theorem fsId_parts (hminor : minor < 2 ^ 64) :
    fsId major minor / 2 ^ 64 = major ∧ fsId major minor % 2 ^ 64 = minor := by
  rw [fsId, ← Nat.shiftLeft_add_eq_or_of_lt hminor, Nat.shiftLeft_eq]
  omega

theorem testBit_beyond {n i : Nat} (h : n < 2 ^ 32) (hi : 32 ≤ i) : n.testBit i = false :=
  Nat.testBit_lt_two_pow (h.trans_le (Nat.pow_le_pow_right (by decide) hi))

theorem testBit_mask (width low i : Nat) :
    ((2 ^ width - 1) <<< low).testBit i = (decide (low ≤ i) && decide (i - low < width)) := by
  rw [Nat.testBit_shiftLeft, Nat.testBit_two_pow_sub_one]

theorem makedev_parts (hmajor : major < 2 ^ 32) (hminor : minor < 2 ^ 32) :
    devMajor (makedev major minor) = major ∧ devMinor (makedev major minor) = minor := by
  have hmajor' (i : Nat) (hi : 32 ≤ i) := testBit_beyond hmajor hi
  have hminor' (i : Nat) (hi : 32 ≤ i) := testBit_beyond hminor hi
  -- the four masks, bit by bit
  have h8 (i : Nat) : Nat.testBit 0xff i = _ := testBit_mask 8 0 i
  have h12 (i : Nat) : Nat.testBit 0xfff i = _ := testBit_mask 12 0 i
  have h20 (i : Nat) : Nat.testBit 0xfffff000 i = _ := testBit_mask 20 12 i
  have h24 (i : Nat) : Nat.testBit 0xffffff00 i = _ := testBit_mask 24 8 i
  constructor
  · apply Nat.eq_of_testBit_eq
    intro i
    simp only [devMajor, makedev, Nat.testBit_or, Nat.testBit_and, Nat.testBit_shiftRight,
      Nat.testBit_shiftLeft, h8, h12, h20, h24]
    grind
  · apply Nat.eq_of_testBit_eq
    intro i
    simp only [devMinor, makedev, Nat.testBit_or, Nat.testBit_and, Nat.testBit_shiftRight,
      Nat.testBit_shiftLeft, h8, h12, h20, h24]
    grind

theorem nfstime_says {seconds nseconds : Nat} (h : nseconds < 10 ^ 9) :
    ∃ value : Int, (nfstime seconds nseconds).join = some (.time value nseconds) ∧
      -2 ^ 63 ≤ value ∧ value < 2 ^ 63 ∧ (2 ^ 64 : Int) ∣ seconds - value := by
  refine ⟨Int.bmod seconds (2 ^ 64), ?_, ?_, ?_, ?_⟩
  · rw [nfstime, if_neg (by omega)]
    rfl
  · have hle := Int.le_bmod (x := seconds) (m := 2 ^ 64) (by decide)
    norm_num at hle ⊢
    omega
  · have hlt := Int.bmod_lt (x := seconds) (m := 2 ^ 64) (by decide)
    norm_num at hlt ⊢
    omega
  · exact Int.dvd_self_sub_bmod

end Values

/-- The value of a field is what the wire says, if its nanoseconds are below a second. -/
theorem wireField_says (h : subSecond (.field field) (wire (.field field)).1 = true) :
    Says nameToId field (wire (.field field)).1 (wireField nameToId wire field).join := by
  have hfits := (wire (.field field)).2
  unfold wireField
  generalize (wire (.field field)).1 = value at h hfits ⊢
  cases field with
  | namedAttr => exact ⟨truth value, rfl, truth_iff value⟩
  | fsid => exact ⟨_, rfl, fsId_parts hfits.2⟩
  | rawdev => exact ⟨_, rfl, makedev_parts hfits.1 hfits.2⟩
  | spaceUsed => exact ⟨_, rfl, blocks_whole value⟩
  | timeAccess | timeMetadata | timeModify => exact nfstime_says (belowSecond_iff.mp h)
  | _ => rfl

/-- The values with those of `ids` from the wire. -/
def stored : AttrValues where
  ftype := if .type ∈ ids then some ((wire .type).1 : Nat) else v.ftype
  fields := fun field =>
    if .field field ∈ ids then (wireField nameToId wire field).join else v.fields field

theorem parseAttrs_encodeList (rest : Bytes) :
    parseAttrs nameToId ids v (encodeList wire ids ++ rest) =
      if subSeconds wire ids then some (stored nameToId wire ids v, rest) else none := by
  induction ids generalizing v with
  | nil => simp [parseAttrs, encodeList, subSeconds, stored]
  | cons id ids ih =>
    rw [parseAttrs, encodeList, flatMap_cons, append_assoc,
      id.item.read_encode (wire id).2]
    dsimp only
    cases id with
    | type =>
      refine (ih _).trans ?_
      simp [subSeconds, subSecond, stored]
    | field field =>
      cases hv : wireField nameToId wire field with
      | none =>
        have hl := wireField_isSome nameToId wire field
        rw [hv] at hl
        unfold wireField at hv
        simp [store, hv, subSeconds, ← hl]
      | some value =>
        have hs : store nameToId v (.field field) (wire (.field field)).1 =
            some {v with fields := Function.update v.fields field value} := by
          unfold wireField at hv
          rw [store, hv]
          rfl
        rw [hs]
        refine (ih _).trans ?_
        have hst : stored nameToId wire ids
            {v with fields := Function.update v.fields field value} =
              stored nameToId wire (.field field :: ids) v := by
          unfold stored
          congr 1
          · simp
          · funext other
            by_cases heq : other = field
            · subst heq
              simp [hv]
            · simp [heq]
        have hsm := wireField_isSome nameToId wire field
        rw [hv] at hsm
        rw [hst]
        simp [subSeconds, ← hsm]

variable {nameToId} in
theorem parseAttrs_append {ids : List Fattr} {v v' : AttrValues} {input rest : Bytes}
    (h : parseAttrs nameToId ids v input = some (v', rest)) (more : Bytes) :
    parseAttrs nameToId ids v (input ++ more) = some (v', rest ++ more) := by
  induction ids generalizing v input with
  | nil =>
    cases h
    rfl
  | cons id ids ih =>
    unfold parseAttrs at h ⊢
    split at h
    · cases h
    rename_i value mid hr
    rw [id.item.read_append hr]
    dsimp only
    split at h
    · cases h
    exact ih h

theorem parseAttrList_encodeList : parseAttrList nameToId ids (encodeList wire ids) =
        (if subSeconds wire ids then .ok (stored nameToId wire ids ⟨none, fun _ => none⟩)
          else .error attrDecodeError) ∧
      (∀ front back, encodeList wire ids = front ++ back → back ≠ [] →
        parseAttrList nameToId ids front = .error attrDecodeError) ∧
      ∀ more, more ≠ [] →
        parseAttrList nameToId ids (encodeList wire ids ++ more) = .error attrDecodeError := by
  have hp := fun rest =>
    parseAttrs_encodeList nameToId wire ids ⟨none, fun _ => none⟩ rest
  refine ⟨?_, ?_, ?_⟩
  · have he := hp []
    rw [append_nil] at he
    rw [parseAttrList, he]
    cases subSeconds wire ids with
    | false => rfl
    | true => rfl
  · intro front back hs hb
    unfold parseAttrList
    cases hfr : parseAttrs nameToId ids ⟨none, fun _ => none⟩ front with
    | none => rfl
    | some parsed =>
      -- The whole list would leave `back` over as well.
      have ha := parseAttrs_append hfr back
      have he := hp []
      rw [append_nil, hs, ha] at he
      split at he
      · have hr := congrArg Prod.snd (Option.some.inj he)
        exact absurd (append_eq_nil_iff.mp hr).2 hb
      · cases he
  · intro more hm
    rw [parseAttrList, hp more]
    split
    · rfl
    rename_i hif
    split at hif
    · cases hif
      rw [if_neg (by simpa using hm)]
    · cases hif

end Inversion

theorem requestMaskToAttrList_ascending :
    ((requestMaskToAttrList masks).map Fattr.number).Pairwise (· < ·) := by
  have hf : (fullAttrIds.map Fattr.number).Pairwise (· < ·) := by decide
  exact hf.sublist (filter_sublist.map _)

theorem mem_requestMaskToAttrList : .type ∈ requestMaskToAttrList masks ∧
      ∀ field, .field field ∈ requestMaskToAttrList masks ↔ masks field = true := by
  refine ⟨by simp [requestMaskToAttrList, fullAttrIds], ?_⟩
  intro field
  have hf : .field field ∈ fullAttrIds := by cases field <;> decide
  simp [requestMaskToAttrList, hf]

/-- For every mask and all values, in ascending order of the attributes: the decoder
returns the values, which say what the wire says, if no nanoseconds reach a second and
fails otherwise, and it accepts neither less nor more than the whole list. Applying the
result sets the type and every requested field that was found, and leaves the other fields
alone. -/
theorem parseAttrList_applyAttrs (nameToId : Bytes → Bool → Option Nat) (a : VfAttrs)
    (wire : (id : Fattr) → id.Wire) :
    let ids := requestMaskToAttrList a.masks
    let found : Field → Option FieldValue := fun field =>
      if a.masks field then (wireField nameToId wire field).join else none
    let v : AttrValues := ⟨some ((wire .type).1 : Nat), found⟩
    (ids.map Fattr.number).Pairwise (· < ·) ∧
    (∀ field, subSecond (.field field) (wire (.field field)).1 = true →
      Says nameToId field (wire (.field field)).1 (wireField nameToId wire field).join) ∧
    parseAttrList nameToId ids (encodeList wire ids) =
      (if subSeconds wire ids then .ok v else .error attrDecodeError) ∧
    (∀ front back, encodeList wire ids = front ++ back → back ≠ [] →
      parseAttrList nameToId ids front = .error attrDecodeError) ∧
    (∀ more, more ≠ [] →
      parseAttrList nameToId ids (encodeList wire ids ++ more) = .error attrDecodeError) ∧
    (applyAttrs a v).ftype = fileTypeFromNfs (wire .type).1 ∧
    ∀ field, (applyAttrs a v).returned field = (found field).isSome ∧
      (applyAttrs a v).fields field = match found field with
        | none => a.fields field
        | some value => applied (fileTypeFromNfs (wire .type).1) field value := by
  intro ids found v
  obtain ⟨htype, hfields⟩ := mem_requestMaskToAttrList a.masks
  obtain ⟨hlist, hfront, hmore⟩ := parseAttrList_encodeList nameToId wire ids
  have hstored : stored nameToId wire ids ⟨none, fun _ => none⟩ = v := by
    unfold stored
    congr 1
    funext field
    simp only [ids, hfields, found]
  rw [hstored] at hlist
  refine ⟨requestMaskToAttrList_ascending _, wireField_says nameToId wire, hlist, hfront, hmore,
    rfl, ?_⟩
  intro field
  cases hmask : a.masks field with
  | false => simp [applyAttrs, found, v, hmask]
  | true =>
    cases hfound : (wireField nameToId wire field).join with
    | none => simp [applyAttrs, found, v, hmask, hfound]
    | some value =>
      simp [applyAttrs, found, v, hmask, hfound]
      rfl

/-- The owner `bob` is requested but has no number here: the field stays as it was. -/
theorem applyAttrs_unresolved_owner :
    let a : VfAttrs := ⟨fun field => field = .owner, fun _ => false, .regular, fun _ => .number 7⟩
    (parseAttrList (fun _ _ => none) (requestMaskToAttrList a.masks)
        ([0, 0, 0, 1] ++ string [98, 111, 98])).map (fun v => (applyAttrs a v).fields .owner) =
      .ok (a.fields .owner) := by
  decide +kernel

end Vnfs.Nfs.Metadata
