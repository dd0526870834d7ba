import Mathlib

/-!
External data representation: unsigned integers with the most significant byte first, and
counted strings filled up with zeros to a multiple of four bytes. A reader takes a value
off the front of its input.
-/

namespace Vnfs.Xdr

open List

/-- The lowest `width` bytes of a number, the most significant one first. -/
def be : Nat → Nat → List UInt8
  | 0, _ => []
  | width + 1, n => UInt8.ofNat (n / 256 ^ width) :: be width n

def ofBe (bytes : List UInt8) : Nat := bytes.foldl (fun n byte => n * 256 + byte.toNat) 0

@[simp] theorem length_be (width n : Nat) : (be width n).length = width := by
  induction width with
  | zero => rfl
  | succ width ih => rw [be, length_cons, ih]

theorem foldl_be (width n start : Nat) :
    (be width n).foldl (fun n byte => n * 256 + byte.toNat) start =
      start * 256 ^ width + n % 256 ^ width := by
  induction width generalizing start with
  | zero => simp [be, Nat.mod_one]
  | succ width ih =>
    rw [be, foldl_cons, ih, Nat.mod_pow_succ, UInt8.toNat_ofNat', show 2 ^ 8 = 256 from rfl]
    ring

theorem ofBe_be {width n : Nat} (h : n < 256 ^ width) : ofBe (be width n) = n := by
  rw [ofBe, foldl_be, Nat.mod_eq_of_lt h, Nat.zero_mul, Nat.zero_add]

def readUint (width : Nat) (input : List UInt8) : Option (Nat × List UInt8) :=
  if width ≤ input.length then some (ofBe (input.take width), input.drop width) else none

theorem readUint_be {width n : Nat} (h : n < 256 ^ width) (rest : List UInt8) :
    readUint width (be width n ++ rest) = some (n, rest) := by
  have hl := length_be width n
  rw [readUint, take_left' hl, drop_left' hl, ofBe_be h, if_pos]
  rw [length_append, hl]
  exact Nat.le_add_right _ _

theorem readUint_append {width n : Nat} {input rest : List UInt8}
    (h : readUint width input = some (n, rest)) (more : List UInt8) :
    readUint width (input ++ more) = some (n, rest ++ more) := by
  unfold readUint at h ⊢
  split at h
  · rename_i hle
    cases h
    rw [if_pos (by rw [length_append]; omega), take_append_of_le_length hle,
      drop_append_of_le_length hle]
  · cases h

/-- The least multiple of four that is not below `length`. -/
def padded (length : Nat) : Nat := (length + 3) / 4 * 4

def string (text : List UInt8) : List UInt8 :=
  be 4 text.length ++ (text ++ replicate (padded text.length - text.length) 0)

def readString (input : List UInt8) : Option (List UInt8 × List UInt8) :=
  match readUint 4 input with
  | none => none
  | some (length, rest) =>
    if padded length ≤ rest.length then some (rest.take length, rest.drop (padded length))
    else none

theorem readString_string {text : List UInt8} (h : text.length < 256 ^ 4) (rest : List UInt8) :
    readString (string text ++ rest) = some (text, rest) := by
  have hle : text.length ≤ padded text.length := by
    unfold padded
    omega
  have hl : (text ++ replicate (padded text.length - text.length) (0 : UInt8)).length =
      padded text.length := by
    rw [length_append, length_replicate, Nat.add_sub_cancel' hle]
  rw [readString, string, append_assoc, readUint_be h]
  dsimp only
  rw [drop_left' hl, append_assoc, take_left, if_pos]
  rw [← append_assoc, length_append, hl]
  exact Nat.le_add_right _ _

theorem readString_append {text input rest : List UInt8} (h : readString input = some (text, rest))
    (more : List UInt8) : readString (input ++ more) = some (text, rest ++ more) := by
  unfold readString at h ⊢
  split at h
  · cases h
  rename_i length mid hr
  rw [readUint_append hr]
  dsimp only
  split at h
  · rename_i hle
    cases h
    have hl : length ≤ padded length := by
      unfold padded
      omega
    rw [if_pos (by rw [length_append]; omega), take_append_of_le_length (hl.trans hle),
      drop_append_of_le_length hle]
  · cases h

theorem dvd_length_string (text : List UInt8) : 4 ∣ (string text).length := by
  simp only [string, length_append, length_be, length_replicate, padded]
  omega

/-- A number in decimal digits. -/
def decimal (n : Nat) : List UInt8 :=
  if n < 10 then [UInt8.ofNat (48 + n)] else decimal (n / 10) ++ [UInt8.ofNat (48 + n % 10)]

def ofDecimal (text : List UInt8) : Nat :=
  text.foldl (fun n digit => n * 10 + (digit.toNat - 48)) 0

theorem ofDecimal_decimal (n : Nat) : ofDecimal (decimal n) = n := by
  induction n using Nat.strongRecOn with
  | ind n ih =>
    have hd : ∀ digit < 10, (UInt8.ofNat (48 + digit)).toNat - 48 = digit := by decide
    unfold decimal
    split
    · rename_i hsm
      simp only [ofDecimal, foldl_cons, foldl_nil, hd n hsm]
      omega
    rename_i hl
    have hr := ih (n / 10) (by omega)
    unfold ofDecimal at hr ⊢
    rw [foldl_append, hr]
    simp only [foldl_cons, foldl_nil, hd (n % 10) (Nat.mod_lt n (by decide))]
    omega

theorem length_decimal {digits n : Nat} (hd : 0 < digits) (h : n < 10 ^ digits) :
    (decimal n).length ≤ digits := by
  induction digits generalizing n with
  | zero => cases hd
  | succ digits ih =>
    unfold decimal
    split
    · exact Nat.le_add_left _ _
    rename_i hl
    rw [pow_succ] at h
    have hp : 0 < digits := by
      rcases Nat.eq_zero_or_pos digits with rfl | hp
      · omega
      · exact hp
    have hr := ih hp (Nat.div_lt_of_lt_mul (by omega : n < 10 * 10 ^ digits))
    rw [length_append, length_singleton]
    omega

/-- The shapes a value may have: a number, a string, or two values one behind the other. -/
inductive Item where
  | uint (width : Nat)
  | text
  | both (first second : Item)

namespace Item

def Value : Item → Type
  | uint _ => Nat
  | text => List UInt8
  | both first second => first.Value × second.Value

/-- The values of a shape that can be encoded. -/
def Fits : (item : Item) → item.Value → Prop
  | uint width, n => Nat.lt n (256 ^ width)
  | text, bytes => List.length bytes < 256 ^ 4
  | both first second, value => first.Fits value.1 ∧ second.Fits value.2

def encode : (item : Item) → item.Value → List UInt8
  | uint width, n => be width n
  | text, bytes => string bytes
  | both first second, value => first.encode value.1 ++ second.encode value.2

def read : (item : Item) → List UInt8 → Option (item.Value × List UInt8)
  | uint width, input => readUint width input
  | text, input => readString input
  | both first second, input =>
    match first.read input with
    | none => none
    | some (a, rest) => (second.read rest).map fun (b, rest) => ((a, b), rest)

theorem read_encode (item : Item) {value : item.Value} (h : item.Fits value)
    (rest : List UInt8) : item.read (item.encode value ++ rest) = some (value, rest) := by
  induction item generalizing rest with
  | uint width => exact readUint_be h rest
  | text => exact readString_string h rest
  | both first second ihfirst ihsecond =>
    rw [read, encode, append_assoc, ihfirst h.1]
    dsimp only
    rw [ihsecond h.2]
    rfl

theorem read_append (item : Item) {input rest : List UInt8} {value : item.Value}
    (h : item.read input = some (value, rest)) (more : List UInt8) :
    item.read (input ++ more) = some (value, rest ++ more) := by
  induction item generalizing input rest with
  | uint width => exact readUint_append h more
  | text => exact readString_append h more
  | both first second ihfirst ihsecond =>
    unfold read at h ⊢
    split at h
    · cases h
    rename_i a mid hf
    obtain ⟨⟨b, rest'⟩, hs, heq⟩ := Option.map_eq_some_iff.mp h
    cases heq
    rw [ihfirst hf]
    dsimp only
    rw [ihsecond hs]
    rfl

end Item

end Vnfs.Xdr
