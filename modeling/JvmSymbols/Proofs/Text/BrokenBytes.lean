import JvmSymbols.Proofs.Text.ModifiedUtf8Inverse

/-!
# Broken bytes in a name stay where they are

A cut-off lead looks ahead into the bytes of the next character. No character starts with a
continuation byte (`startsFresh_encode`), so the lead finishes nothing there and reading resumes at
the very next byte (`unitAt_of_isBroken`).
-/

namespace JvmSymbols.ModifiedUtf8

/-- No byte stands for itself and no sequence is finished. -/
structure IsBroken (bytes : Bytes) : Prop where
  high : ∀ b ∈ bytes, 0x80 ≤ b
  two : ∀ lead b, [lead, b] <:+: bytes → 0xC0 ≤ lead → lead ≤ 0xDF → ¬ (0x80 ≤ b ∧ b ≤ 0xBF)
  three : ∀ lead b c, [lead, b, c] <:+: bytes → 0xE0 ≤ lead → lead ≤ 0xEF →
    ¬ ((0x80 ≤ b ∧ b ≤ 0xBF) ∧ 0x80 ≤ c ∧ c ≤ 0xBF)

theorem IsBroken.of_cons {b : UInt8} {bytes : Bytes} (h : IsBroken (b :: bytes)) :
    IsBroken bytes where
  high := fun b hb => h.high b (List.mem_cons_of_mem _ hb)
  two := fun lead b hinfix => h.two lead b (List.infix_cons hinfix)
  three := fun lead b c hinfix => h.three lead b c (List.infix_cons hinfix)

/-! ## What comes next -/

/-- No sequence that is cut off before these bytes is finished by them. -/
def StartsFresh (bytes : Bytes) : Prop := ∀ b ∈ bytes.head?, isContinuation b = false

theorem startsFresh_encodeUnits (us : List UInt16) : StartsFresh (encodeUnits us) := by
  cases us with
  | nil => exact nofun
  | cons u us =>
    have hu : u.toNat < 2 ^ 16 := u.toNat_lt
    have hfresh {n : Nat} (hn : n < 0x80 ∨ 0xC0 ≤ n ∧ n < 256) :
        isContinuation (.ofNat n) = false := by
      rw [Bool.eq_false_iff, Ne, isContinuation_iff, UInt8.toNat_ofNat_of_lt' (by omega : n < 256)]
      omega
    rw [encodeUnits, List.flatMap_cons, encodeUnit_eq]
    intro b hb
    split at hb
    · cases hb
      exact hfresh (by omega)
    split at hb
    · cases hb
      exact hfresh (by omega)
    · cases hb
      exact hfresh (by omega)

theorem startsFresh_encode (text : List Char) : StartsFresh (encode text) :=
  startsFresh_encodeUnits (Utf16.encode text)

/-! ## One broken byte -/

theorem isContinuation_iff_le (b : UInt8) : isContinuation b = true ↔ 0x80 ≤ b ∧ b ≤ 0xBF := by
  rw [isContinuation_iff, UInt8.le_iff_toNat_le, UInt8.le_iff_toNat_le]
  exact and_congr Iff.rfl Nat.lt_succ_iff

theorem unitAt_of_unfinished {lead : UInt8} {rest : Bytes} (hhigh : 0x80 ≤ lead)
    (htwo : ∀ b more, rest = b :: more → 0xC0 ≤ lead → lead ≤ 0xDF → ¬ isContinuation b = true)
    (hthree : ∀ b c more, rest = b :: c :: more → 0xE0 ≤ lead → lead ≤ 0xEF →
      ¬ (isContinuation b && isContinuation c) = true) :
    unitAt lead rest = (replacement, 0) := by
  simp only [UInt8.le_iff_toNat_le] at hhigh htwo hthree
  unfold unitAt
  rw [startsOne_eq, startsTwo_eq, startsThree_eq, if_neg (by simpa using hhigh)]
  split
  · rename_i hlead
    obtain ⟨hlow, hup⟩ := of_decide_eq_true hlead
    split
    · rw [if_neg (htwo _ _ rfl hlow (Nat.le_of_lt_succ hup))]
    · rfl
  split
  · rename_i hlead
    obtain ⟨hlow, hup⟩ := of_decide_eq_true hlead
    split
    · rw [if_neg (hthree _ _ _ rfl hlow (Nat.le_of_lt_succ hup))]
    · rfl
  · rfl

/-- A broken byte takes nothing of what follows it. -/
theorem unitAt_of_isBroken {lead : UInt8} {bytes rest : Bytes} (h : IsBroken (lead :: bytes))
    (hrest : StartsFresh rest) : unitAt lead (bytes ++ rest) = (replacement, 0) := by
  -- the bytes behind the lead are broken ones, then those of the next character
  refine unitAt_of_unfinished (h.high lead List.mem_cons_self) ?_ ?_
  · intro b more hbytes hlow hup hb
    cases bytes with
    | nil => exact Bool.false_ne_true ((hrest b (congrArg List.head? hbytes)).symm.trans hb)
    | cons b' bytes =>
      cases hbytes
      exact h.two lead b (List.prefix_append [lead, b] bytes).isInfix hlow hup
        ((isContinuation_iff_le b).mp hb)
  · intro b c more hbytes hlow hup hbc
    obtain ⟨hb, hc⟩ := Bool.and_eq_true_iff.mp hbc
    match bytes with
    | [] => exact Bool.false_ne_true ((hrest b (congrArg List.head? hbytes)).symm.trans hb)
    | [_] =>
      obtain ⟨-, hc'⟩ := List.cons.inj hbytes
      exact Bool.false_ne_true ((hrest c (congrArg List.head? hc')).symm.trans hc)
    | b' :: c' :: bytes =>
      cases hbytes
      exact h.three lead b c (List.prefix_append [lead, b, c] bytes).isInfix hlow hup
        ⟨(isContinuation_iff_le b).mp hb, (isContinuation_iff_le c).mp hc⟩

/-! ## Any number of them -/

theorem units_broken_append {bytes rest : Bytes} (h : IsBroken bytes) (hrest : StartsFresh rest) :
    units (bytes ++ rest) = List.replicate bytes.length replacement ++ units rest := by
  induction bytes with
  | nil => rfl
  | cons lead bytes ih =>
    rw [List.cons_append, units, unitsAfter, unitAt_of_isBroken h hrest, ← units, ih h.of_cons]
    rfl

theorem decode_replacements (n : Nat) (us : List UInt16) :
    Utf16.decode (List.replicate n replacement ++ us) =
      List.replicate n replacementChar ++ Utf16.decode us := by
  induction n with
  | zero => rfl
  | succ n ih =>
    rw [List.replicate_succ, List.cons_append, Utf16.decode_cons_of_not_isHigh (by decide), ih]
    rfl

theorem decode_broken_append {bytes rest : Bytes} (h : IsBroken bytes)
    (hrest : StartsFresh rest) :
    decode (bytes ++ rest) = List.replicate bytes.length replacementChar ++ decode rest := by
  rw [decode_eq, units_broken_append h hrest, decode_replacements, ← decode_eq]

/-- Each broken byte in a name gives one U+FFFD, and the text before it and behind it stays. -/
theorem decode_around_broken (before behind : List Char) {bytes : Bytes} (h : IsBroken bytes) :
    decode (encode before ++ bytes ++ encode behind) =
      before ++ List.replicate bytes.length '\ufffd' ++ behind := by
  rw [List.append_assoc, decode_encode_append, decode_broken_append h (startsFresh_encode behind),
    decode_encode, List.append_assoc]
  rfl

/-- A sequence of three cut off behind its second byte, a lead of two, a lead of four, a stray
continuation byte, and a lead of three right before a character. -/
theorem decode_around_six_broken :
    IsBroken [0xE0, 0x80, 0xC3, 0xF0, 0xBF, 0xE1] ∧
      decode (encode ['a', '😀'] ++ [0xE0, 0x80, 0xC3, 0xF0, 0xBF, 0xE1] ++ encode ['\x00', 'é']) =
        ['a', '😀'] ++ List.replicate 6 '\ufffd' ++ ['\x00', 'é'] := by
  have hbroken : IsBroken [0xE0, 0x80, 0xC3, 0xF0, 0xBF, 0xE1] := by
    refine ⟨by simp, ?_, ?_⟩
    · simp only [List.infix_cons_iff, List.cons_prefix_cons, List.infix_nil, List.prefix_nil,
        List.nil_prefix, List.cons_ne_nil, and_true, and_false, or_false]
      rintro lead b (⟨rfl, rfl⟩ | ⟨rfl, rfl⟩ | ⟨rfl, rfl⟩ | ⟨rfl, rfl⟩ | ⟨rfl, rfl⟩) <;> decide
    · simp only [List.infix_cons_iff, List.cons_prefix_cons, List.infix_nil, List.prefix_nil,
        List.nil_prefix, List.cons_ne_nil, and_true, and_false, or_false]
      rintro lead b c (⟨rfl, rfl, rfl⟩ | ⟨rfl, rfl, rfl⟩ | ⟨rfl, rfl, rfl⟩ | ⟨rfl, rfl, rfl⟩) <;>
        decide
  exact ⟨hbroken, decode_around_broken ['a', '😀'] ['\x00', 'é'] hbroken⟩

end JvmSymbols.ModifiedUtf8
