import Mathlib.Data.Int.Notation

/-!
Durations and points of the steady clock (`utils/time.h`, `utils/time.cpp`).

A duration counts microseconds in 64 unsigned bits; a point of the clock counts
nanoseconds in 64 signed ones. The difference of two points is cut to whole
microseconds.
-/

namespace GJServer.Utils

structure TDuration where
  microseconds : UInt64
  deriving DecidableEq, Repr

namespace TDuration

def Seconds (seconds : UInt64) : TDuration := ⟨seconds * 1000000⟩

instance : LT TDuration := ⟨fun d duration => d.microseconds < duration.microseconds⟩

instance (d duration : TDuration) : Decidable (d < duration) :=
  inferInstanceAs (Decidable (d.microseconds < duration.microseconds))

instance : Sub TDuration := ⟨fun l r => ⟨l.microseconds - r.microseconds⟩⟩

/-- A shorter duration can be taken from a longer one. -/
theorem sub_toNat {l r : TDuration} (h : r < l) :
    (l - r).microseconds.toNat = l.microseconds.toNat - r.microseconds.toNat :=
  UInt64.toNat_sub_of_le _ _ (UInt64.le_of_lt h)

end TDuration

structure TTimestamp where
  value : Int64
  deriving DecidableEq, Repr

namespace TTimestamp

/-- `operator-`: `std::chrono::duration_cast` cuts towards zero, and the count of the
result is narrowed to the unsigned type. -/
instance : HSub TTimestamp TTimestamp TDuration where
  hSub time previous := ⟨.ofInt ((time.value.toInt - previous.value.toInt).tdiv 1000)⟩

instance : LE TTimestamp := ⟨fun time later => time.value ≤ later.value⟩

instance (time later : TTimestamp) : Decidable (time ≤ later) :=
  inferInstanceAs (Decidable (time.value ≤ later.value))

def FromMicroseconds (microseconds : UInt64) : TTimestamp := ⟨microseconds.toInt64 * 1000⟩

def Microseconds (time : TTimestamp) : UInt64 := .ofInt (time.value.toInt.tdiv 1000)

variable {time later now now' : TTimestamp}

theorem le_def : time ≤ later ↔ time.value.toInt ≤ later.value.toInt := Int64.le_iff_toInt_le

theorem le_refl (time : TTimestamp) : time ≤ time := le_def.mpr (Int.le_refl _)

theorem le_trans {last : TTimestamp} (h : time ≤ later) (h' : later ≤ last) : time ≤ last :=
  le_def.mpr (Int.le_trans (le_def.mp h) (le_def.mp h'))

/-- Between a point of the clock and a later one the count does not wrap around. -/
theorem sub_toNat (h : time ≤ now) :
    ((now - time).microseconds.toNat : ℤ) = (now.value.toInt - time.value.toInt) / 1000 := by
  have hle := le_def.mp h
  have hnow := now.value.toInt_lt
  have htime := time.value.le_toInt
  show ((UInt64.ofNat
    ((now.value.toInt - time.value.toInt).tdiv 1000 % 2 ^ 64).toNat).toNat : ℤ) = _
  rw [Int.tdiv_eq_ediv_of_nonneg (by omega), UInt64.toNat_ofNat']
  omega

/-- The later an access and the earlier the clock, the shorter the time between them. -/
theorem sub_le_sub (h : time ≤ later) (hlater : later ≤ now) (hnow : now ≤ now') :
    (now - later).microseconds ≤ (now' - time).microseconds := by
  have hshort := sub_toNat hlater
  have hlong := sub_toNat (le_trans h (le_trans hlater hnow))
  have hle := le_def.mp h
  have hclock := le_def.mp hnow
  rw [UInt64.le_iff_toNat_le]
  omega

theorem Microseconds_toNat (h : 0 ≤ time.value.toInt) :
    (time.Microseconds.toNat : ℤ) = time.value.toInt / 1000 := by
  have hlt := time.value.toInt_lt
  show ((UInt64.ofNat (time.value.toInt.tdiv 1000 % 2 ^ 64).toNat).toNat : ℤ) = _
  rw [Int.tdiv_eq_ediv_of_nonneg h, UInt64.toNat_ofNat']
  omega

/-- A number of microseconds that the clock has reached is a point of the clock. -/
theorem FromMicroseconds_toInt {microseconds : UInt64}
    (h : (microseconds.toNat * 1000 : ℤ) ≤ now.value.toInt) :
    (FromMicroseconds microseconds).value.toInt = microseconds.toNat * 1000 := by
  have hlt := now.value.toInt_lt
  have hcount : microseconds.toInt64.toInt = microseconds.toNat := by
    show microseconds.toBitVec.toInt = _
    rw [BitVec.toInt_eq_toNat_of_lt]
    · rfl
    · show 2 * microseconds.toNat < 2 ^ 64
      omega
  show (microseconds.toInt64 * 1000).toInt = _
  rw [Int64.toInt_mul, hcount]
  show Int.bmod (microseconds.toNat * 1000) (2 ^ 64) = _
  exact Int.bmod_eq_of_le (by omega) (by omega)

end TTimestamp

end GJServer.Utils
