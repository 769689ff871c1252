import JvmSymbols.Text.Utf16
import Mathlib.Data.List.Basic

/-!
# UTF-16 reads back what it writes

Reading goes on afresh behind units that leave no surrogate waiting for its partner
(`decode_append`), so a text is read back from its units whatever follows them
(`decode_encode_append`).
-/

namespace JvmSymbols.Utf16

theorem isHigh_iff {u : UInt16} : isHigh u = true ↔ 0xD800 ≤ u.toNat ∧ u.toNat ≤ 0xDBFF := by
  simp [isHigh, UInt16.le_iff_toNat_le]

theorem isLow_iff {u : UInt16} : isLow u = true ↔ 0xDC00 ≤ u.toNat ∧ u.toNat ≤ 0xDFFF := by
  simp [isLow, UInt16.le_iff_toNat_le]

/-! ## Units one behind another -/

theorem decode_cons_of_not_isHigh {u : UInt16} (h : isHigh u = false) (units : List UInt16) :
    decode (u :: units) = single u :: decode units := by
  cases units with
  | nil => rfl
  | cons v units => rw [decode, h, Bool.false_and, if_neg Bool.false_ne_true]

/-- No surrogate at the end of `us` waits for its partner. -/
def IsComplete (us : List UInt16) : Prop := ∀ u ∈ us.getLast?, isHigh u = false

theorem IsComplete.of_cons {u : UInt16} {us : List UInt16} (h : IsComplete (u :: us)) :
    IsComplete us := by
  cases us with
  | nil => exact nofun
  | cons v us => rwa [IsComplete, List.getLast?_cons_cons] at h

theorem decode_append {us : List UInt16} (h : IsComplete us) (vs : List UInt16) :
    decode (us ++ vs) = decode us ++ decode vs := by
  fun_induction decode us with
  | case1 => rfl
  | case2 u => exact decode_cons_of_not_isHigh (h u rfl) vs
  | case3 u v units hpair ih =>
    rw [List.cons_append, List.cons_append, decode, if_pos hpair, ih h.of_cons.of_cons]
    rfl
  | case4 u v units hpair ih =>
    rw [List.cons_append, List.cons_append, decode, if_neg hpair]
    exact congrArg (single u :: ·) (ih h.of_cons)

/-! ## Texts -/

theorem single_ofNat {n : Nat} (h : n < 0xD800 ∨ 0xDFFF < n ∧ n < 0x10000) :
    isHigh (.ofNat n) = false ∧ single (.ofNat n) = Char.ofNat n := by
  have hn : (UInt16.ofNat n).toNat = n := UInt16.toNat_ofNat_of_lt' (by omega : n < 2 ^ 16)
  have hhigh : isHigh (.ofNat n) = false := by
    rw [Bool.eq_false_iff, Ne, isHigh_iff, hn]
    omega
  have hlow : isLow (.ofNat n) = false := by
    rw [Bool.eq_false_iff, Ne, isLow_iff, hn]
    omega
  refine ⟨hhigh, ?_⟩
  rw [single, hhigh, hlow, Bool.false_or, if_neg Bool.false_ne_true, hn]

theorem pair_ofNat {n : Nat} (hlow : 0x10000 ≤ n) (hhigh : n < 0x110000) :
    let u := UInt16.ofNat (0xD800 + (n - 0x10000) / 0x400)
    let v := UInt16.ofNat (0xDC00 + (n - 0x10000) % 0x400)
    isHigh u = true ∧ isLow v = true ∧ pair u v = Char.ofNat n := by
  intro u v
  have hu : u.toNat = 0xD800 + (n - 0x10000) / 0x400 :=
    UInt16.toNat_ofNat_of_lt' (by omega : 0xD800 + (n - 0x10000) / 0x400 < 2 ^ 16)
  have hv : v.toNat = 0xDC00 + (n - 0x10000) % 0x400 :=
    UInt16.toNat_ofNat_of_lt' (by omega : 0xDC00 + (n - 0x10000) % 0x400 < 2 ^ 16)
  refine ⟨isHigh_iff.mpr (by omega), isLow_iff.mpr (by omega), ?_⟩
  rw [pair, hu, hv]
  exact congrArg Char.ofNat (by omega)

theorem decode_encodeChar_append (c : Char) (units : List UInt16) :
    decode (encodeChar c ++ units) = c :: decode units := by
  have hvalid : c.toNat < 0xD800 ∨ 0xDFFF < c.toNat ∧ c.toNat < 0x110000 := c.valid
  by_cases hshort : c.toNat < 0x10000
  · obtain ⟨hhigh, hsingle⟩ := single_ofNat (n := c.toNat) (by omega)
    rw [encodeChar, if_pos hshort, List.singleton_append, decode_cons_of_not_isHigh hhigh, hsingle,
      Char.ofNat_toNat]
  · obtain ⟨hhigh, hlow, hpair⟩ := pair_ofNat (n := c.toNat) (by omega) (by omega)
    rw [encodeChar, if_neg hshort, List.cons_append, List.cons_append, List.nil_append, decode,
      hhigh, hlow, Bool.true_and, if_pos rfl, hpair, Char.ofNat_toNat]

/-- A text is read back from its units, whatever follows them. -/
theorem decode_encode_append (text : List Char) (units : List UInt16) :
    decode (encode text ++ units) = text ++ decode units := by
  induction text with
  | nil => rfl
  | cons c text ih =>
    rw [encode, List.flatMap_cons, List.append_assoc, decode_encodeChar_append, ← encode, ih]
    rfl

@[simp]
theorem decode_encode (text : List Char) : decode (encode text) = text := by
  have h := decode_encode_append text []
  rwa [List.append_nil, decode, List.append_nil] at h

end JvmSymbols.Utf16
