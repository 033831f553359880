import Mathlib.Algebra.Order.Ring.Int
import Mathlib.Data.List.Induction
import Mathlib.Tactic.Ring

/-!
# Numbers of a fixed width in bytes

A number of `width` bytes, the most significant first, and back; and the signed reading of such
bytes, where a set top bit takes `256 ^ width` off.

## Main definitions

* `toBigEndian`, `ofBigEndian`, `ofBigEndianSigned`

## Main results

* `ofBigEndian_toBigEndian`, `toBigEndian_ofBigEndian`: the two are inverse
* `toBigEndian_ofBigEndianSigned`: what is read as not negative is what was written
-/

namespace Relay

/-- The number that the bytes stand for. -/
def ofBigEndian (bytes : List UInt8) : ℕ := bytes.foldl (fun n b => n * 256 + b.toNat) 0

/-- The lowest `width` bytes of a number. -/
def toBigEndian : ℕ → ℕ → List UInt8
  | 0, _ => []
  | width + 1, n => toBigEndian width (n / 256) ++ [UInt8.ofNat (n % 256)]

/-- The number that the bytes stand for in two's complement. -/
def ofBigEndianSigned (bytes : List UInt8) : ℤ :=
  if 2 * ofBigEndian bytes < 256 ^ bytes.length then ofBigEndian bytes
  else ofBigEndian bytes - 256 ^ bytes.length

@[simp] theorem length_toBigEndian (width n : ℕ) : (toBigEndian width n).length = width := by
  induction width generalizing n with
  | zero => rfl
  | succ width ih => rw [toBigEndian, List.length_append, ih, List.length_singleton]

theorem ofBigEndian_append_singleton (bytes : List UInt8) (b : UInt8) :
    ofBigEndian (bytes ++ [b]) = ofBigEndian bytes * 256 + b.toNat := by
  rw [ofBigEndian, List.foldl_append]
  rfl

/-- A number that fits into the width is read back. -/
theorem ofBigEndian_toBigEndian {width n : ℕ} (h : n < 256 ^ width) :
    ofBigEndian (toBigEndian width n) = n := by
  induction width generalizing n with
  | zero =>
    rw [pow_zero, Nat.lt_one_iff] at h
    rw [h]
    rfl
  | succ width ih =>
    have hdiv : n / 256 < 256 ^ width := by
      rw [Nat.div_lt_iff_lt_mul (by norm_num)]
      rwa [pow_succ] at h
    rw [toBigEndian, ofBigEndian_append_singleton, ih hdiv,
      UInt8.toNat_ofNat_of_lt' (Nat.mod_lt n (by norm_num)), Nat.div_add_mod']

/-- Bytes are written back as they were. -/
theorem toBigEndian_ofBigEndian (bytes : List UInt8) :
    toBigEndian bytes.length (ofBigEndian bytes) = bytes := by
  induction bytes using List.reverseRecOn with
  | nil => rfl
  | append_singleton bytes b ih =>
    have hb := b.toNat_lt
    rw [ofBigEndian_append_singleton, List.length_append, List.length_singleton, toBigEndian,
      show (ofBigEndian bytes * 256 + b.toNat) / 256 = ofBigEndian bytes by omega,
      show (ofBigEndian bytes * 256 + b.toNat) % 256 = b.toNat by omega, ih, UInt8.ofNat_toNat]

/-- So many bytes hold only numbers below that power of 256. -/
theorem ofBigEndian_lt (bytes : List UInt8) : ofBigEndian bytes < 256 ^ bytes.length := by
  induction bytes using List.reverseRecOn with
  | nil => exact Nat.one_pos
  | append_singleton bytes b ih =>
    have hb := b.toNat_lt
    rw [ofBigEndian_append_singleton, List.length_append, List.length_singleton, pow_succ]
    omega

/-- A number below half of the range is read as it was written. -/
theorem ofBigEndianSigned_toBigEndian {width n : ℕ} (h : 2 * n < 256 ^ width) :
    ofBigEndianSigned (toBigEndian width n) = n := by
  rw [ofBigEndianSigned, length_toBigEndian, ofBigEndian_toBigEndian (by omega), if_pos h]

theorem ofBigEndianSigned_lt (bytes : List UInt8) :
    2 * ofBigEndianSigned bytes < 256 ^ bytes.length := by
  have hlt : (ofBigEndian bytes : ℤ) < 256 ^ bytes.length := by
    exact_mod_cast ofBigEndian_lt bytes
  rw [ofBigEndianSigned]
  split
  · next hlow => exact_mod_cast hlow
  · omega

/-- Writing what was read as not negative gives the bytes back. -/
theorem toBigEndian_ofBigEndianSigned {bytes : List UInt8} (h : 0 ≤ ofBigEndianSigned bytes) :
    toBigEndian bytes.length (ofBigEndianSigned bytes).toNat = bytes := by
  rw [ofBigEndianSigned] at h ⊢
  split at h
  · next hlow =>
    rw [if_pos hlow, Int.toNat_natCast]
    exact toBigEndian_ofBigEndian bytes
  · -- with the top bit set the number is negative
    have hlt : (ofBigEndian bytes : ℤ) < 256 ^ bytes.length := by
      exact_mod_cast ofBigEndian_lt bytes
    omega

end Relay
