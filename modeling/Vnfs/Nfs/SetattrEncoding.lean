import Vnfs.Lib.Xdr
import Vnfs.Wire

/-!
The attributes a client sets, as SETATTR and a creating OPEN send them. The bits of the
bitmap and the values behind it are written by separate statements. A decoder in the
sense of RFC 8881 knows only the bitmap: it walks the set bits in ascending order and
reads one value for each.
-/

namespace Vnfs.Nfs.Setattr

open Xdr List

/-- `fattr4`: how many words of the bitmap are sent, its words and the values. -/
structure Fattr4 where
  bitmapLen : Nat
  map : List Nat
  attrVals : Bytes
  deriving DecidableEq, Repr

/-- An attribute to set with its value. A time of `none` is the server's own. -/
inductive Attribute where
  | size (bytes : UInt64)
  | mode (bits : UInt32)
  | owner (identity : UInt32)
  | ownerGroup (identity : UInt32)
  | timeAccessSet (time : Option (Int64 × UInt32))
  | timeModifySet (time : Option (Int64 × UInt32))
  deriving DecidableEq

def Attribute.id : Attribute → Nat
  | .size _ => 4
  | .mode _ => 33
  | .owner _ => 36
  | .ownerGroup _ => 37
  | .timeAccessSet _ => 48
  | .timeModifySet _ => 54

/-- The identity in decimal digits; all of `vals` is filled up to four bytes. -/
def appendIdentity (vals : Bytes) (identity : UInt32) : Bytes :=
  let text := decimal identity.toNat
  let vals := vals ++ be 4 text.length ++ text
  vals ++ replicate (padded vals.length - vals.length) 0

/-- `SET_TO_CLIENT_TIME4` with a time; the code never asks for the server's. -/
def timeBytes : Option (Int64 × UInt32) → Bytes
  | none => be 4 0
  | some time => be 4 1 ++ (be 8 time.1.toUInt64.toNat ++ be 4 time.2.toNat)

def Attribute.append (vals : Bytes) : Attribute → Bytes
  | .size bytes => vals ++ be 8 bytes.toNat
  | .mode bits => vals ++ be 4 bits.toNat
  | .owner identity | .ownerGroup identity => appendIdentity vals identity
  | .timeAccessSet time | .timeModifySet time => vals ++ timeBytes time

variable (attr : Attribute) (map : List Nat)

/-- `map[id / 32] |= 1 << (id % 32)`. -/
def setBit (id : Nat) : List Nat := map.modify (id / 32) (· ||| 1 <<< (id % 32))

/-- The body of each `if let Some(value)`: the bit and the value of one attribute. -/
def put (st : List Nat × Bytes) (attr : Attribute) : List Nat × Bytes :=
  (setBit st.1 attr.id, attr.append st.2)

/-- The loop that finds the last word in use. -/
def usedWords : Nat :=
  map.zipIdx.foldl (fun len word => if word.1 ≠ 0 then word.2 + 1 else len) 0

/-- The arguments that are given, in the order of the statements of `setattr_ownership`. -/
def given (mode : Option UInt32) (size : Option UInt64)
    (ownership : Option UInt32 × Option UInt32) (atime mtime : Option (Int64 × UInt32)) :
    List Attribute :=
  (size.map .size).toList ++ ((mode.map .mode).toList ++ ((ownership.1.map .owner).toList ++
    ((ownership.2.map .ownerGroup).toList ++ ((atime.map fun t => .timeAccessSet (some t)).toList ++
      (mtime.map fun t => .timeModifySet (some t)).toList))))

/-- The `obj_attributes` of `setattr_ownership`. -/
def setattrOwnership (mode : Option UInt32) (size : Option UInt64)
    (ownership : Option UInt32 × Option UInt32) (atime mtime : Option (Int64 × UInt32)) : Fattr4 :=
  let (map, vals) := (given mode size ownership atime mtime).foldl put ([0, 0, 0], [])
  ⟨usedWords map, map, vals⟩

/-- The `createattrs` of `open_claim_null_create_mode`. -/
def createattrs (mode : Option UInt32) (truncate : Bool) : Fattr4 :=
  let st := if truncate then put ([0, 0, 0], []) (.size 0) else ([0, 0, 0], [])
  let (map, vals) := match mode with
    | none => st
    | some mode => put st (.mode mode)
  let len := if map.getD 2 0 ≠ 0 then 3 else if map.getD 1 0 ≠ 0 then 2
    else if map.getD 0 0 ≠ 0 then 1 else 0
  ⟨len, map, vals⟩

section Decoder

/-- The attributes a bitmap names, in ascending order. -/
def Fattr4.attributes (f : Fattr4) : List Nat :=
  (List.range (32 * f.bitmapLen)).filter fun id => (f.map.getD (id / 32) 0).testBit (id % 32)

def timeOf (seconds nseconds : Nat) : Int64 × UInt32 :=
  ((UInt64.ofNat seconds).toInt64, UInt32.ofNat nseconds)

def readSettime (input : Bytes) : Option (Option (Int64 × UInt32) × Bytes) := do
  let (how, input) ← readUint 4 input
  if how = 0 then return (none, input)
  guard (how = 1)
  let (seconds, input) ← readUint 8 input
  let (nseconds, input) ← readUint 4 input
  return (some (timeOf seconds nseconds), input)

def readIdentity (input : Bytes) : Option (UInt32 × Bytes) :=
  (readString input).map fun (text, rest) => (UInt32.ofNat (ofDecimal text), rest)

/-- A value as its attribute's type has it. -/
def readAttribute : Nat → Bytes → Option (Attribute × Bytes)
  | 4, input => (readUint 8 input).map fun (n, rest) => (.size (.ofNat n), rest)
  | 33, input => (readUint 4 input).map fun (n, rest) => (.mode (.ofNat n), rest)
  | 36, input => (readIdentity input).map fun (identity, rest) => (.owner identity, rest)
  | 37, input => (readIdentity input).map fun (identity, rest) => (.ownerGroup identity, rest)
  | 48, input => (readSettime input).map fun (time, rest) => (.timeAccessSet time, rest)
  | 54, input => (readSettime input).map fun (time, rest) => (.timeModifySet time, rest)
  | _, _ => none

/-- One value for each attribute, and nothing behind the last. -/
def readAttributes : List Nat → Bytes → Option (List Attribute)
  | [], input => if input.isEmpty then some [] else none
  | id :: ids, input =>
    match readAttribute id input with
    | none => none
    | some (value, rest) => (readAttributes ids rest).map (value :: ·)

def Fattr4.decode (f : Fattr4) : Option (List Attribute) := readAttributes f.attributes f.attrVals

end Decoder

/-- The bytes of one value, whatever stands before it. -/
def Attribute.encode : Attribute → Bytes
  | .size bytes => be 8 bytes.toNat
  | .mode bits => be 4 bits.toNat
  | .owner identity | .ownerGroup identity => string (decimal identity.toNat)
  | .timeAccessSet time | .timeModifySet time => timeBytes time

open Attribute

theorem dvd_length_encode : 4 ∣ attr.encode.length := by
  cases attr with
  | size bytes => exact ⟨2, length_be 8 _⟩
  | mode bits => exact ⟨1, length_be 4 _⟩
  | owner identity => exact dvd_length_string _
  | ownerGroup identity => exact dvd_length_string _
  | timeAccessSet time => cases time <;> simp [encode, timeBytes]
  | timeModifySet time => cases time <;> simp [encode, timeBytes]

/-- An identity is a counted string if what stands before it is filled up. -/
theorem appendIdentity_eq {vals : Bytes} (h : 4 ∣ vals.length) (identity : UInt32) :
    appendIdentity vals identity = vals ++ string (decimal identity.toNat) := by
  simp only [appendIdentity, string, append_assoc, length_append, length_be]
  congr 4
  unfold padded
  omega

theorem append_eq {vals : Bytes} (h : 4 ∣ vals.length) (attr : Attribute) :
    attr.append vals = vals ++ attr.encode := by
  cases attr with
  | owner identity => exact appendIdentity_eq h identity
  | ownerGroup identity => exact appendIdentity_eq h identity
  | _ => rfl

theorem foldl_put (attributes : List Attribute) {st : List Nat × Bytes} (h : 4 ∣ st.2.length) :
    attributes.foldl put st = ((attributes.map Attribute.id).foldl setBit st.1,
      st.2 ++ attributes.flatMap encode) := by
  induction attributes generalizing st with
  | nil => rw [flatMap_nil, append_nil]; rfl
  | cons attr attributes ih =>
    have ha := append_eq h attr
    have hal : 4 ∣ (put st attr).2.length := by
      rw [put, ha, length_append]
      exact Nat.dvd_add h (dvd_length_encode attr)
    rw [foldl_cons, ih hal, put, ha, flatMap_cons, append_assoc]
    rfl

theorem readIdentity_string (identity : UInt32) (rest : Bytes) :
    readIdentity (string (decimal identity.toNat) ++ rest) = some (identity, rest) := by
  have hsm : identity.toNat < 10 ^ 10 := identity.toNat_lt.trans (by norm_num)
  have hl := length_decimal (by decide) hsm
  rw [readIdentity, readString_string (by omega) rest]
  simp [ofDecimal_decimal]

theorem readSettime_timeBytes (time : Option (Int64 × UInt32)) (rest : Bytes) :
    readSettime (timeBytes time ++ rest) = some (time, rest) := by
  cases time with
  | none => simp [readSettime, timeBytes, readUint_be (by decide : 0 < 256 ^ 4)]
  | some time =>
    have hs : time.1.toUInt64.toNat < 256 ^ 8 := time.1.toUInt64.toNat_lt
    have hn : time.2.toNat < 256 ^ 4 := time.2.toNat_lt
    have ht : timeOf time.1.toUInt64.toNat time.2.toNat = time := by
      rw [timeOf, UInt64.ofNat_toNat, UInt32.ofNat_toNat]
      rfl
    simp [readSettime, timeBytes, readUint_be (by decide : 1 < 256 ^ 4), readUint_be hs,
      readUint_be hn, ht]

theorem readAttribute_encode (rest : Bytes) :
    readAttribute attr.id (attr.encode ++ rest) = some (attr, rest) := by
  cases attr with
  | size bytes =>
    have hbytes : bytes.toNat < 256 ^ 8 := bytes.toNat_lt
    simp [readAttribute, Attribute.id, encode, readUint_be hbytes]
  | mode bits =>
    have hb : bits.toNat < 256 ^ 4 := bits.toNat_lt
    simp [readAttribute, Attribute.id, encode, readUint_be hb]
  | owner identity => simp [readAttribute, Attribute.id, encode, readIdentity_string]
  | ownerGroup identity => simp [readAttribute, Attribute.id, encode, readIdentity_string]
  | timeAccessSet time => simp [readAttribute, Attribute.id, encode, readSettime_timeBytes]
  | timeModifySet time => simp [readAttribute, Attribute.id, encode, readSettime_timeBytes]

theorem readAttributes_encode (attributes : List Attribute) :
    readAttributes (attributes.map Attribute.id) (attributes.flatMap encode) = some attributes := by
  induction attributes with
  | nil => rfl
  | cons attr attributes ih =>
    rw [map_cons, flatMap_cons, readAttributes, readAttribute_encode]
    exact congrArg (Option.map (attr :: ·)) ih

/-- The bits of any of the attributes in ascending order name those attributes. -/
theorem attributes_of_sublist {ids : List Nat}
    (h : ids.Sublist [4, 33, 36, 37, 48, 54]) (vals : Bytes) :
    (Fattr4.mk (usedWords (ids.foldl setBit [0, 0, 0])) (ids.foldl setBit [0, 0, 0])
      vals).attributes = ids := by
  have ha : ∀ ids ∈ sublists [4, 33, 36, 37, 48, 54],
      (Fattr4.mk (usedWords (ids.foldl setBit [0, 0, 0])) (ids.foldl setBit [0, 0, 0])
        []).attributes = ids := by
    decide +kernel
  exact ha ids (mem_sublists.mpr h)

section

variable (mode : Option UInt32) (size : Option UInt64)
  (ownership : Option UInt32 × Option UInt32) (atime mtime : Option (Int64 × UInt32))

/-- The caller asks for an attribute with this value; every time is one of its own. -/
def Requested : Attribute → Prop
  | .size bytes => size = some bytes
  | .mode bits => mode = some bits
  | .owner identity => ownership.1 = some identity
  | .ownerGroup identity => ownership.2 = some identity
  | .timeAccessSet time => ∃ own, time = some own ∧ atime = some own
  | .timeModifySet time => ∃ own, time = some own ∧ mtime = some own

theorem mem_given (attr : Attribute) :
    attr ∈ given mode size ownership atime mtime ↔
      Requested mode size ownership atime mtime attr := by
  cases attr <;> simp [given, Requested, and_comm, eq_comm]

theorem given_ids :
    ((given mode size ownership atime mtime).map Attribute.id).Sublist [4, 33, 36, 37, 48, 54] := by
  have hpiece : ∀ {α : Type} (x : Option α) (f : α → Attribute) (id : Nat),
      (∀ a, (f a).id = id) → ((x.map f).toList.map Attribute.id).Sublist [id] := by
    intro α x f id hid
    cases x with
    | none => exact nil_sublist _
    | some a => simp [hid a]
  simp only [given, map_append]
  exact (hpiece size _ 4 fun _ => rfl).append ((hpiece mode _ 33 fun _ => rfl).append
    ((hpiece ownership.1 _ 36 fun _ => rfl).append ((hpiece ownership.2 _ 37 fun _ => rfl).append
      ((hpiece atime _ 48 fun _ => rfl).append (hpiece mtime _ 54 fun _ => rfl)))))

theorem setattrOwnership_sound : (setattrOwnership mode size ownership atime mtime).attributes =
        (given mode size ownership atime mtime).map Attribute.id ∧
      (setattrOwnership mode size ownership atime mtime).decode =
        some (given mode size ownership atime mtime) := by
  have ha : (setattrOwnership mode size ownership atime mtime).attributes =
      (given mode size ownership atime mtime).map Attribute.id := by
    rw [setattrOwnership, foldl_put _ (by decide)]
    exact attributes_of_sublist (given_ids mode size ownership atime mtime) _
  refine ⟨ha, ?_⟩
  rw [Fattr4.decode, ha, setattrOwnership, foldl_put _ (by decide)]
  exact readAttributes_encode _

/-- An OPEN that creates sends what a SETATTR of its mode and of size zero would. -/
theorem createattrs_eq (truncate : Bool) : createattrs mode truncate =
      setattrOwnership mode (if truncate then some 0 else none) (none, none) none none := by
  cases mode with
  | none => cases truncate <;> rfl
  | some mode =>
    -- The words do not depend on the mode itself.
    cases truncate <;>
      simp [createattrs, setattrOwnership, given, put, Attribute.id, setBit, usedWords, zipIdx_cons]

end

/-- Whatever a SETATTR or a creating OPEN is given, its bitmap has the bits of the given
attributes and no others, and the decoder reads back the given values to the last byte:
an attribute is among them iff the caller asked for it with that value. -/
theorem setattrOwnership_createattrs_decode (mode : Option UInt32) (size : Option UInt64)
    (ownership : Option UInt32 × Option UInt32) (atime mtime : Option (Int64 × UInt32))
    (truncate : Bool) :
    ((setattrOwnership mode size ownership atime mtime).attributes =
        (given mode size ownership atime mtime).map Attribute.id ∧
      (setattrOwnership mode size ownership atime mtime).decode =
        some (given mode size ownership atime mtime) ∧
      ∀ attr, attr ∈ given mode size ownership atime mtime ↔
        Requested mode size ownership atime mtime attr) ∧
    (createattrs mode truncate).attributes =
        (given mode (if truncate then some 0 else none) (none, none) none none).map Attribute.id ∧
      (createattrs mode truncate).decode =
        some (given mode (if truncate then some 0 else none) (none, none) none none) ∧
      ∀ attr, attr ∈ given mode (if truncate then some 0 else none) (none, none) none none ↔
        attr = .size 0 ∧ truncate = true ∨ ∃ bits, attr = .mode bits ∧ mode = some bits := by
  rw [createattrs_eq]
  obtain ⟨hbits, hdecode⟩ := setattrOwnership_sound mode size ownership atime mtime
  obtain ⟨hbits', hdecode'⟩ := setattrOwnership_sound mode (if truncate then some 0 else none)
    (none, none) none none
  refine ⟨⟨hbits, hdecode, mem_given mode size ownership atime mtime⟩, hbits', hdecode', ?_⟩
  intro attr
  rw [mem_given]
  cases attr with
  | size bytes => cases truncate <;> simp [Requested, eq_comm]
  | mode bits => simp [Requested]
  | owner identity | ownerGroup identity => simp [Requested]
  | timeAccessSet time | timeModifySet time => simp [Requested]

end Vnfs.Nfs.Setattr
