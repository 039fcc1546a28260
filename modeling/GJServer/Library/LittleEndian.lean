import Mathlib.Tactic.Ring
import Mathlib.Data.List.Basic

/-!
Fixed-width little-endian numbers in a list of bytes, for any width.
-/

namespace Library.LittleEndian

/-- The `w` low bytes of `n`, least significant first. -/
def encode : ℕ → ℕ → List UInt8
  | 0, _ => []
  | w + 1, n => UInt8.ofNat n :: encode w (n / 256)

def decode : List UInt8 → ℕ
  | [] => 0
  | b :: bs => b.toNat + 256 * decode bs

@[simp] theorem encode_length (w n : ℕ) : (encode w n).length = w := by
  induction w generalizing n with
  | zero => rfl
  | succ w ih => rw [encode, List.length_cons, ih]

theorem decode_encode {w n : ℕ} (h : n < 256 ^ w) : decode (encode w n) = n := by
  induction w generalizing n with
  | zero =>
      rw [pow_zero, Nat.lt_one_iff] at h
      rw [h]
      rfl
  | succ w ih =>
      have hdiv : n / 256 < 256 ^ w := by
        rw [Nat.div_lt_iff_lt_mul (by decide)]
        simpa [pow_succ] using h
      rw [encode, decode, ih hdiv, UInt8.toNat_ofNat']
      exact Nat.mod_add_div n 256

end Library.LittleEndian
