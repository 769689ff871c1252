import JvmSymbols.Bytes.Basic
import Mathlib.Algebra.Ring.Nat
import Mathlib.Data.List.Induction

/-!
# Digits in base 256

The bytes of a given length are just the numbers below a power of 256.
-/

namespace JvmSymbols

namespace Bytes

/-- Only the digits beyond the width are lost. -/
theorem bigEndian_ofNat (width n : Nat) : bigEndian (ofNat width n) = n % 256 ^ width := by
  induction width generalizing n with
  | zero => rw [Nat.pow_zero, Nat.mod_one]; rfl
  | succ width ih =>
    have digit : (UInt8.ofNat n).toNat = n % 256 := UInt8.toNat_ofNat'
    rw [ofNat, bigEndian_append_singleton, ih, digit, Nat.pow_succ', Nat.mod_mul, Nat.add_comm,
      Nat.mul_comm]

theorem bigEndian_lt (bytes : Bytes) : bigEndian bytes < 256 ^ bytes.length := by
  induction bytes using List.reverseRecOn with
  | nil => decide
  | append_singleton bytes b ih =>
    have := b.toNat_lt
    rw [bigEndian_append_singleton, List.length_append, List.length_singleton, Nat.pow_succ]
    omega

theorem bigEndian_lt_of_length {bytes : Bytes} {n : Nat} (h : bytes.length = n) :
    bytes.bigEndian < 256 ^ n := by
  rw [← h]
  exact bytes.bigEndian_lt

/-- Digits are determined by their number and their value. -/
theorem ofNat_bigEndian (bytes : Bytes) : ofNat bytes.length (bigEndian bytes) = bytes := by
  induction bytes using List.reverseRecOn with
  | nil => rfl
  | append_singleton bytes b ih =>
    have hb := b.toNat_lt
    have hdiv : (bigEndian bytes * 256 + b.toNat) / 256 = bigEndian bytes := by omega
    have hlast : UInt8.ofNat (bigEndian bytes * 256 + b.toNat) = b := by
      apply UInt8.toNat_inj.mp
      rw [UInt8.toNat_ofNat']
      omega
    rw [bigEndian_append_singleton, List.length_append, List.length_singleton, ofNat, hdiv, ih,
      hlast]

end Bytes

end JvmSymbols
