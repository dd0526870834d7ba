import Vnfs.Core

/-!
Times on the wire of SMB: ticks of 100 nanoseconds since 1601. The client's own times are
seconds since 1970, which may be negative, and nanoseconds counted forward from them. Both
conversions are in the widths of the source.
-/

namespace Vnfs.Smb

/-- The saturating operations of `i64`, by their exact result. -/
@[irreducible] def saturating (exact : Int) : Int64 :=
  .ofInt (max (-2 ^ 63) (min exact (2 ^ 63 - 1)))

/-- 1970 in ticks. -/
def unixEpochFiletime : UInt64 := 116444736000000000

def ticksPerSecond : UInt64 := 10000000

def filetimeParts (time : UInt64) : Int64 × UInt32 :=
  if time ≥ unixEpochFiletime then
    let ticks := time - unixEpochFiletime
    ((ticks / ticksPerSecond).toInt64, (ticks % ticksPerSecond * 100).toUInt32)
  else
    let ticksBeforeEpoch := unixEpochFiletime - time
    let wholeSeconds := (ticksBeforeEpoch / ticksPerSecond).toInt64
    let fractionalTicks := ticksBeforeEpoch % ticksPerSecond
    if fractionalTicks = 0 then (saturating (-wholeSeconds.toInt), 0)
    else (saturating ((saturating (-wholeSeconds.toInt)).toInt - 1),
      1000000000 - (fractionalTicks * 100).toUInt32)

def windowsEpochSeconds : Int := 11644473600

/-- A checked operation of `i128`. -/
def checked128 (exact : Int) : Option Int :=
  if -2 ^ 127 ≤ exact ∧ exact < 2 ^ 127 then some exact else none

variable (seconds : Int64)

def filetimeValue (nanoseconds : UInt32) (index : Nat) : VfResult UInt64 :=
  if nanoseconds ≥ 1000000000 then .error (.fromKind (some index) .invalidInput)
  else
    let ticks := (checked128 ((seconds.toInt + windowsEpochSeconds) * 10000000)).bind fun value =>
      checked128 (value + (nanoseconds / 100).toNat)
    -- zero and the negative values select update policies
    match ticks.filter fun value => 1 ≤ value ∧ value ≤ 2 ^ 63 - 1 with
    | none => .error (.fromKind (some index) .invalidInput)
    | some ticks => .ok (.ofInt ticks)

/-- The tick count of a time in unbounded numbers. -/
def ticksOf (nanoseconds : UInt32) : Int :=
  (seconds.toInt + 11644473600) * 10000000 + (nanoseconds.toNat / 100 : Nat)

theorem toInt_saturating {exact : Int} (h : -2 ^ 63 ≤ exact) (h' : exact < 2 ^ 63) :
    (saturating exact).toInt = exact := by
  have hc : max (-2 ^ 63) (min exact (2 ^ 63 - 1)) = exact := by omega
  rw [saturating, hc, Int64.toInt_ofInt]
  apply Int.bmod_eq_of_le
  · simp only [Int64.size]
    omega
  · simp only [Int64.size]
    omega

theorem toNat_ticksPerSecond : ticksPerSecond.toNat = 10000000 := rfl

variable {nanoseconds : UInt32} {time : UInt64}

theorem le_nanoseconds : nanoseconds ≥ 1000000000 ↔ 1000000000 ≤ nanoseconds.toNat :=
  UInt32.le_iff_toNat_le

theorem toNat_unixEpochFiletime : unixEpochFiletime.toNat = 116444736000000000 := rfl

/-- Whole seconds and the rest of a tick count, without loss in any cast. -/
theorem toNat_ticks (ticks : UInt64) :
    (ticks / ticksPerSecond).toInt64.toInt = (ticks.toNat / 10000000 : Nat) ∧
      (ticks % ticksPerSecond).toNat = ticks.toNat % 10000000 ∧
      (ticks % ticksPerSecond * 100).toUInt32.toNat = ticks.toNat % 10000000 * 100 := by
  have hlt := ticks.toNat_lt
  have hq : (ticks / ticksPerSecond).toNat = ticks.toNat / 10000000 := by
    rw [UInt64.toNat_div, toNat_ticksPerSecond]
  have hr : (ticks % ticksPerSecond).toNat = ticks.toNat % 10000000 := by
    rw [UInt64.toNat_mod, toNat_ticksPerSecond]
  have hh : (100 : UInt64).toNat = 100 := rfl
  refine ⟨?_, hr, ?_⟩
  · change (ticks / ticksPerSecond).toBitVec.toInt = _
    rw [← UInt64.toNat_toBitVec] at hq
    rw [BitVec.toInt_eq_toNat_of_lt (by omega), hq]
  · rw [UInt64.toNat_toUInt32, UInt64.toNat_mul, hr, hh]
    omega

/-- Seconds since 1970 and nanoseconds from there are the time of a tick count. -/
def Denotes (parts : Int64 × UInt32) (time : UInt64) : Prop :=
  parts.2.toNat < 1000000000 ∧ parts.1.toInt * 1000000000 + parts.2.toNat =
    ((time.toNat : Int) - 116444736000000000) * 100

theorem denotes_since (h : unixEpochFiletime ≤ time) : Denotes (filetimeParts time) time := by
  have hs := UInt64.toNat_sub_of_le _ _ h
  have hle := UInt64.le_iff_toNat_le.mp h
  rw [toNat_unixEpochFiletime] at hs hle
  obtain ⟨hq, -, hr⟩ := toNat_ticks (time - unixEpochFiletime)
  rw [Denotes, filetimeParts, if_pos h, hq, hr, hs]
  omega

theorem denotes_before (h : time < unixEpochFiletime) : Denotes (filetimeParts time) time := by
  have hs := UInt64.toNat_sub_of_le _ _ (UInt64.le_of_lt h)
  have hlt := UInt64.lt_iff_toNat_lt.mp h
  rw [toNat_unixEpochFiletime] at hs hlt
  obtain ⟨hq, hf, hr⟩ := toNat_ticks (unixEpochFiletime - time)
  let whole := saturating (-((unixEpochFiletime - time) / ticksPerSecond).toInt64.toInt)
  have hn : whole.toInt = -((unixEpochFiletime - time).toNat / 10000000 : Nat) := by
    rw [show whole = saturating _ from rfl, hq]
    exact toInt_saturating (by omega) (by omega)
  by_cases h0 : (unixEpochFiletime - time) % ticksPerSecond = 0
  · have he : filetimeParts time = (whole, 0) := by
      rw [filetimeParts, if_neg (UInt64.not_le.mpr h)]
      exact if_pos h0
    rw [h0, UInt64.toNat_zero] at hf
    rw [Denotes, he, hn, UInt32.toNat_zero]
    omega
  · have he : filetimeParts time = (saturating (whole.toInt - 1),
        1000000000 - ((unixEpochFiletime - time) % ticksPerSecond * 100).toUInt32) := by
      rw [filetimeParts, if_neg (UInt64.not_le.mpr h)]
      exact if_neg h0
    rw [← UInt64.toNat_inj, hf, UInt64.toNat_zero] at h0
    have hb : (1000000000 : UInt32).toNat = 1000000000 := rfl
    rw [Denotes, he, hn, toInt_saturating (by omega) (by omega), UInt32.toNat_sub_of_le, hr, hb]
    · omega
    · rw [UInt32.le_iff_toNat_le, hr, hb]
      omega

theorem filetimeParts_denotes (time : UInt64) : Denotes (filetimeParts time) time := by
  by_cases h : unixEpochFiletime ≤ time
  · exact denotes_since h
  · exact denotes_before (UInt64.not_le.mp h)

theorem toNat_ofInt_of_le {ticks : Int} (h : 1 ≤ ticks) (h' : ticks ≤ 2 ^ 63 - 1) :
    ((UInt64.ofInt ticks).toNat : Int) = ticks := by
  rw [UInt64.ofInt, UInt64.toNat_ofNat']
  omega

theorem filetimeValue_eq (index : Nat) (h : nanoseconds.toNat < 1000000000) :
    filetimeValue seconds nanoseconds index =
      if 1 ≤ ticksOf seconds nanoseconds ∧ ticksOf seconds nanoseconds ≤ 2 ^ 63 - 1 then
        .ok (.ofInt (ticksOf seconds nanoseconds))
      else .error (.fromKind (some index) .invalidInput) := by
  have hl := seconds.le_toInt
  have hu := seconds.toInt_lt
  have hd : (nanoseconds / 100).toNat = nanoseconds.toNat / 100 := by
    rw [UInt32.toNat_div]
    rfl
  have hn : ¬nanoseconds ≥ 1000000000 := fun hge => Nat.not_le.mpr h (le_nanoseconds.mp hge)
  have hm : checked128 ((seconds.toInt + windowsEpochSeconds) * 10000000) =
      some ((seconds.toInt + 11644473600) * 10000000) := by
    rw [checked128, windowsEpochSeconds, if_pos (by omega)]
  have ha : checked128 ((seconds.toInt + 11644473600) * 10000000 + (nanoseconds / 100).toNat) =
      some (ticksOf seconds nanoseconds) := by
    rw [checked128, hd, if_pos (by omega)]
    rfl
  rw [filetimeValue, if_neg hn, hm]
  dsimp only [Option.bind]
  rw [ha]
  by_cases ht : 1 ≤ ticksOf seconds nanoseconds ∧ ticksOf seconds nanoseconds ≤ 2 ^ 63 - 1
  · rw [if_pos ht, Option.filter_some, if_pos (by simpa using ht)]
  · rw [if_neg ht, Option.filter_some, if_neg (by simpa using ht)]

/-- The round trip to whole ticks, the meaning of every tick count, and which times there
are ticks for. -/
theorem filetime_roundtrip :
    (∀ seconds nanoseconds index time, filetimeValue seconds nanoseconds index = .ok time →
      (filetimeParts time).1 = seconds ∧
        (filetimeParts time).2.toNat = nanoseconds.toNat / 100 * 100) ∧
    (∀ time, (filetimeParts time).2.toNat < 1000000000 ∧
      (filetimeParts time).1.toInt * 1000000000 + (filetimeParts time).2.toNat =
        ((time.toNat : Int) - 116444736000000000) * 100) ∧
    ∀ seconds nanoseconds index, nanoseconds.toNat < 1000000000 →
      ((∃ time, filetimeValue seconds nanoseconds index = .ok time) ↔
        1 ≤ ticksOf seconds nanoseconds ∧ ticksOf seconds nanoseconds ≤ 2 ^ 63 - 1) := by
  refine ⟨?_, filetimeParts_denotes, ?_⟩
  · intro seconds nanoseconds index time h
    by_cases hn : nanoseconds.toNat < 1000000000
    · rw [filetimeValue_eq seconds index hn] at h
      split at h
      · rename_i ht
        cases h
        obtain ⟨hlt, heq⟩ := filetimeParts_denotes (.ofInt (ticksOf seconds nanoseconds))
        rw [toNat_ofInt_of_le ht.1 ht.2] at heq
        rw [← Int64.toInt_inj]
        unfold ticksOf at heq ht hlt ⊢
        omega
      · cases h
    · rw [filetimeValue, if_pos (le_nanoseconds.mpr (Nat.not_lt.mp hn))] at h
      cases h
  · intro seconds nanoseconds index hn
    rw [filetimeValue_eq seconds index hn]
    split
    · rename_i ht
      exact iff_of_true ⟨_, rfl⟩ ht
    · rename_i ht
      exact iff_of_false (fun ⟨_, h⟩ => nomatch h) ht

/-- A time that was read is written back as it was, exactly if it is none of the values that
select a policy. -/
theorem filetimeValue_filetimeParts (time : UInt64) (index : Nat) :
    filetimeValue (filetimeParts time).1 (filetimeParts time).2 index =
      if 1 ≤ time.toNat ∧ time.toNat ≤ 2 ^ 63 - 1 then .ok time
      else .error (.fromKind (some index) .invalidInput) := by
  obtain ⟨hlt, heq⟩ := filetimeParts_denotes time
  have ht : ticksOf (filetimeParts time).1 (filetimeParts time).2 = time.toNat := by
    unfold ticksOf
    omega
  have hu := time.toNat_lt
  rw [filetimeValue_eq _ _ hlt, ht]
  refine if_ctx_congr (by omega) (fun h => ?_) fun _ => rfl
  have hto : ((UInt64.ofInt time.toNat).toNat : Int) = time.toNat :=
    toNat_ofInt_of_le (by omega) (by omega)
  rw [UInt64.toNat_inj.mp (Int.ofNat_inj.mp hto)]

end Vnfs.Smb
