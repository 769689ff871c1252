/-!
# Byte strings

Byte strings are lists, so that every reader is a function on the bytes that are left.
-/

namespace JvmSymbols

abbrev Bytes := List UInt8

namespace Bytes

/-- The number whose base-256 digits are `bytes`, most significant first. -/
def bigEndian (bytes : Bytes) : Nat :=
  bytes.foldl (fun n b => n * 256 + b.toNat) 0

/-- The last `width` base-256 digits of `n`, most significant first. -/
def ofNat : (width n : Nat) → Bytes
  | 0, _ => []
  | width + 1, n => ofNat width (n / 256) ++ [UInt8.ofNat n]

theorem length_ofNat (width n : Nat) : (ofNat width n).length = width := by
  induction width generalizing n with
  | zero => rfl
  | succ width ih => simp [ofNat, ih]

theorem bigEndian_append_singleton (bytes : Bytes) (b : UInt8) :
    bigEndian (bytes ++ [b]) = bigEndian bytes * 256 + b.toNat := by
  simp [bigEndian, List.foldl_append]

/-- The number whose base-256 digits are `bytes`, least significant first. -/
def littleEndian (bytes : Bytes) : Nat :=
  bytes.foldr (fun b n => b.toNat + 256 * n) 0

end Bytes

/-- Whether `list` has at least `n` elements; looks at no more than `n` of them. -/
def hasAtLeast {α : Type u} : Nat → List α → Bool
  | 0, _ => true
  | _ + 1, [] => false
  | n + 1, _ :: list => hasAtLeast n list

@[simp] theorem hasAtLeast_iff {α : Type u} {n : Nat} {list : List α} :
    hasAtLeast n list = true ↔ n ≤ list.length := by
  induction list generalizing n with
  | nil => cases n <;> simp [hasAtLeast]
  | cons a list ih => cases n <;> simp [hasAtLeast, ih]

end JvmSymbols
