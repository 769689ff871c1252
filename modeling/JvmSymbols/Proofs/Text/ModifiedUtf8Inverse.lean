import JvmSymbols.Proofs.Text.Utf16Inverse
import JvmSymbols.Text.ModifiedUtf8

/-!
# The text encoding of class files reads back what it writes

Each unit is read back from its bytes and not a byte further (`unitAt_encodeUnit`), so units are
read back whatever follows them (`units_encodeUnits_append`). Plain text needs no path of its own
(`decode_eq`).
-/

namespace JvmSymbols.ModifiedUtf8

/-! ## Bytes by their numbers -/

/-- A property of all bytes can be checked number by number. -/
theorem forall_byte {P : UInt8 → Prop} (h : ∀ n < 256, P (.ofNat n)) (b : UInt8) : P b := by
  have hb := h b.toNat b.toNat_lt
  rwa [UInt8.ofNat_toNat] at hb

/-- What the bits of a byte tell of its number, and the number of what is put together from bits. -/
theorem byte_bits (b : UInt8) :
    (isContinuation b = true ↔ 0x80 ≤ b.toNat ∧ b.toNat < 0xC0) ∧
      (b &&& 0x80 == 0) = decide (b.toNat < 0x80) ∧
      (b &&& 0xE0 == 0xC0) = decide (0xC0 ≤ b.toNat ∧ b.toNat < 0xE0) ∧
      (b &&& 0xF0 == 0xE0) = decide (0xE0 ≤ b.toNat ∧ b.toNat < 0xF0) ∧
      (0x80 : UInt8) ||| (b &&& 0x3F) = .ofNat (0x80 + b.toNat % 64) ∧
      (b.toNat < 32 → 0xC0 ||| b = .ofNat (0xC0 + b.toNat)) ∧
      (b.toNat < 16 → 0xE0 ||| b = .ofNat (0xE0 + b.toNat)) := by
  revert b
  refine forall_byte ?_
  decide +kernel

theorem isContinuation_iff (b : UInt8) :
    isContinuation b = true ↔ 0x80 ≤ b.toNat ∧ b.toNat < 0xC0 := (byte_bits b).1

theorem startsOne_eq (lead : UInt8) : (lead &&& 0x80 == 0) = decide (lead.toNat < 0x80) :=
  (byte_bits lead).2.1

theorem startsTwo_eq (lead : UInt8) :
    (lead &&& 0xE0 == 0xC0) = decide (0xC0 ≤ lead.toNat ∧ lead.toNat < 0xE0) :=
  (byte_bits lead).2.2.1

theorem startsThree_eq (lead : UInt8) :
    (lead &&& 0xF0 == 0xE0) = decide (0xE0 ≤ lead.toNat ∧ lead.toNat < 0xF0) :=
  (byte_bits lead).2.2.2.1

theorem ofNat_continuation (b : UInt8) :
    (0x80 : UInt8) ||| (b &&& 0x3F) = .ofNat (0x80 + b.toNat % 64) := (byte_bits b).2.2.2.2.1

theorem ofNat_lead :
    (∀ n < 32, 0xC0 ||| UInt8.ofNat n = .ofNat (0xC0 + n)) ∧
      (∀ n < 16, 0xE0 ||| UInt8.ofNat n = .ofNat (0xE0 + n)) := by
  have hnumber {n : Nat} (hn : n < 32) : (UInt8.ofNat n).toNat = n :=
    UInt8.toNat_ofNat_of_lt' (by omega : n < 2 ^ 8)
  refine ⟨fun n hn => ?_, fun n hn => ?_⟩
  · obtain ⟨-, -, -, -, -, htwo, -⟩ := byte_bits (.ofNat n)
    rw [hnumber hn] at htwo
    exact htwo hn
  · obtain ⟨-, -, -, -, -, -, hthree⟩ := byte_bits (.ofNat n)
    rw [hnumber (by omega : n < 32)] at hthree
    exact hthree hn

theorem toNat_payload (b : UInt8) : (payload b).toNat = b.toNat % 64 := by
  rw [payload, UInt16.toNat_and, UInt8.toNat_toUInt16]
  exact Nat.and_two_pow_sub_one_eq_mod b.toNat 6

/-! ## Units by their numbers -/

theorem or_payload {x y : Nat} (hx : x < 1024) (hy : y < 64) :
    (x <<< 6) % 0x10000 ||| y = x * 64 + y := by
  have hor := Nat.two_pow_add_eq_or_of_lt (i := 6) (b := y) hy x
  rw [Nat.shiftLeft_eq, Nat.mod_eq_of_lt (by omega), Nat.mul_comm, ← hor]

theorem or_two_payloads {x y z : Nat} (hx : x < 16) (hy : y < 64) (hz : z < 64) :
    (x <<< 12) % 0x10000 ||| (y <<< 6) % 0x10000 ||| z = x * 4096 + y * 64 + z := by
  have hor := Nat.two_pow_add_eq_or_of_lt (i := 12) (b := y * 64) (by omega) x
  have hfront : (x <<< 12) % 0x10000 ||| (y <<< 6) % 0x10000 = ((x * 64 + y) <<< 6) % 0x10000 := by
    simp only [Nat.shiftLeft_eq]
    rw [Nat.mod_eq_of_lt (by omega), Nat.mod_eq_of_lt (by omega), Nat.mod_eq_of_lt (by omega),
      Nat.mul_comm x, ← hor]
    omega
  rw [hfront, or_payload (by omega) hz]
  omega

theorem toNat_masked (lead : UInt8) :
    (lead.toUInt16 &&& 0x1F).toNat = lead.toNat % 32 ∧
      (lead.toUInt16 &&& 0x0F).toNat = lead.toNat % 16 := by
  rw [UInt16.toNat_and, UInt16.toNat_and, UInt8.toNat_toUInt16]
  exact ⟨Nat.and_two_pow_sub_one_eq_mod lead.toNat 5, Nat.and_two_pow_sub_one_eq_mod lead.toNat 4⟩

theorem unitAt_one {lead : UInt8} (h : lead.toNat < 0x80) (rest : Bytes) :
    unitAt lead rest = (.ofNat lead.toNat, 0) := by
  unfold unitAt
  rw [startsOne_eq, if_pos (decide_eq_true h)]
  refine congrArg (·, 0) (UInt16.toNat_inj.mp ?_)
  rw [UInt8.toNat_toUInt16, UInt16.toNat_ofNat_of_lt' (by omega : lead.toNat < 2 ^ 16)]

theorem unitAt_two {lead b : UInt8} (hlow : 0xC0 ≤ lead.toNat) (hhigh : lead.toNat < 0xE0)
    (hb : isContinuation b = true) (rest : Bytes) :
    unitAt lead (b :: rest) = (.ofNat (lead.toNat % 32 * 64 + b.toNat % 64), 1) := by
  have hone : ¬ decide (lead.toNat < 0x80) = true := by simp; omega
  have htwo : decide (0xC0 ≤ lead.toNat ∧ lead.toNat < 0xE0) = true := decide_eq_true ⟨hlow, hhigh⟩
  unfold unitAt
  rw [startsOne_eq, startsTwo_eq, if_neg hone, if_pos htwo]
  dsimp only
  rw [if_pos hb]
  refine congrArg (·, 1) (UInt16.toNat_inj.mp ?_)
  rw [UInt16.toNat_ofNat_of_lt' (by omega : lead.toNat % 32 * 64 + b.toNat % 64 < 2 ^ 16),
    UInt16.toNat_or, UInt16.toNat_shiftLeft, (toNat_masked lead).1, toNat_payload]
  exact or_payload (by omega) (by omega)

theorem unitAt_three {lead b c : UInt8} (hlow : 0xE0 ≤ lead.toNat) (hhigh : lead.toNat < 0xF0)
    (hb : isContinuation b = true) (hc : isContinuation c = true) (rest : Bytes) :
    unitAt lead (b :: c :: rest) =
      (.ofNat (lead.toNat % 16 * 4096 + b.toNat % 64 * 64 + c.toNat % 64), 2) := by
  have hone : ¬ decide (lead.toNat < 0x80) = true := by simp; omega
  have htwo : ¬ decide (0xC0 ≤ lead.toNat ∧ lead.toNat < 0xE0) = true := by simp; omega
  have hthree : decide (0xE0 ≤ lead.toNat ∧ lead.toNat < 0xF0) = true :=
    decide_eq_true ⟨hlow, hhigh⟩
  unfold unitAt
  rw [startsOne_eq, startsTwo_eq, startsThree_eq, if_neg hone, if_neg htwo, if_pos hthree]
  dsimp only
  rw [hb, hc, Bool.true_and, if_pos rfl]
  refine congrArg (·, 2) (UInt16.toNat_inj.mp ?_)
  rw [UInt16.toNat_ofNat_of_lt'
      (by omega : lead.toNat % 16 * 4096 + b.toNat % 64 * 64 + c.toNat % 64 < 2 ^ 16),
    UInt16.toNat_or, UInt16.toNat_or, UInt16.toNat_shiftLeft, UInt16.toNat_shiftLeft,
    (toNat_masked lead).2, toNat_payload, toNat_payload]
  exact or_two_payloads (by omega) (by omega) (by omega)

theorem toUInt8_shiftRight (u : UInt16) :
    u.toUInt8 = .ofNat u.toNat ∧ (u >>> 6).toUInt8 = .ofNat (u.toNat / 64) ∧
      (u >>> 12).toUInt8 = .ofNat (u.toNat / 4096) := by
  refine ⟨?_, ?_, ?_⟩
  all_goals
    refine UInt8.toNat_inj.mp ?_
    rw [UInt16.toNat_toUInt8, UInt8.toNat_ofNat']
  · rw [UInt16.toNat_shiftRight, Nat.shiftRight_eq_div_pow]
    rfl
  · rw [UInt16.toNat_shiftRight, Nat.shiftRight_eq_div_pow]
    rfl

/-- The bytes of a unit by its number. -/
theorem encodeUnit_eq (u : UInt16) :
    encodeUnit u =
      if u.toNat ≠ 0 ∧ u.toNat < 0x80 then [.ofNat u.toNat]
      else if u.toNat < 0x800 then [.ofNat (0xC0 + u.toNat / 64), .ofNat (0x80 + u.toNat % 64)]
      else [.ofNat (0xE0 + u.toNat / 4096), .ofNat (0x80 + u.toNat / 64 % 64),
        .ofNat (0x80 + u.toNat % 64)] := by
  have hu : u.toNat < 2 ^ 16 := u.toNat_lt
  have hone : (u != 0 && u < 0x80) = decide (u.toNat ≠ 0 ∧ u.toNat < 0x80) := by
    rw [Bool.eq_iff_iff]
    simp [← UInt16.toNat_inj, UInt16.lt_iff_toNat_lt]
  have htwo : u < 0x800 ↔ u.toNat < 0x800 := UInt16.lt_iff_toNat_lt
  have hlow (n : Nat) : n % 2 ^ 8 % 64 = n % 64 := by omega
  obtain ⟨hwhole, hsix, htwelve⟩ := toUInt8_shiftRight u
  obtain ⟨hlead, hlead'⟩ := ofNat_lead
  rw [encodeUnit, hone, ofNat_continuation, ofNat_continuation, hwhole, hsix, htwelve,
    UInt8.toNat_ofNat', UInt8.toNat_ofNat', hlow, hlow, hlead' _ (by omega)]
  simp only [decide_eq_true_eq, htwo]
  split
  · rfl
  split
  · rw [hlead _ (by omega)]
  · rfl

/-- A unit is read back from its bytes, whatever follows them. -/
theorem unitAt_encodeUnit (u : UInt16) (rest : Bytes) :
    ∃ lead tail, encodeUnit u = lead :: tail ∧ unitAt lead (tail ++ rest) = (u, tail.length) := by
  have hu : u.toNat < 2 ^ 16 := u.toNat_lt
  have hback {n : Nat} (h : n = u.toNat) : UInt16.ofNat n = u := by rw [h, UInt16.ofNat_toNat]
  have hbyte {n : Nat} (h : n < 256) : (UInt8.ofNat n).toNat = n := UInt8.toNat_ofNat_of_lt' h
  have hcontinuation (n : Nat) : isContinuation (.ofNat (0x80 + n % 64)) = true := by
    rw [isContinuation_iff, hbyte (by omega)]
    omega
  rw [encodeUnit_eq]
  split
  · rename_i hone
    refine ⟨_, [], rfl, ?_⟩
    rw [unitAt_one (by rw [hbyte] <;> omega), hbyte (by omega), hback rfl]
    rfl
  split
  · refine ⟨_, [_], rfl, ?_⟩
    have hlead : (UInt8.ofNat (0xC0 + u.toNat / 64)).toNat = 0xC0 + u.toNat / 64 := hbyte (by omega)
    refine (unitAt_two (by omega) (by omega) (hcontinuation _) rest).trans ?_
    rw [hlead, hbyte (by omega), hback (by omega)]
    rfl
  · refine ⟨_, [_, _], rfl, ?_⟩
    have hlead : (UInt8.ofNat (0xE0 + u.toNat / 4096)).toNat = 0xE0 + u.toNat / 4096 :=
      hbyte (by omega)
    refine (unitAt_three (by omega) (by omega) (hcontinuation _) (hcontinuation _) rest).trans ?_
    rw [hlead, hbyte (by omega), hbyte (by omega), hback (by omega)]
    rfl

/-! ## Whole texts -/

theorem unitsAfter_length (front rest : Bytes) :
    unitsAfter front.length (front ++ rest) = units rest := by
  induction front with
  | nil => rfl
  | cons b front ih => exact ih

/-- Units are read back from their bytes, whatever follows them. -/
theorem units_encodeUnits_append (us : List UInt16) (bytes : Bytes) :
    units (encodeUnits us ++ bytes) = us ++ units bytes := by
  induction us with
  | nil => rfl
  | cons u us ih =>
    obtain ⟨lead, tail, hbytes, hunit⟩ := unitAt_encodeUnit u (encodeUnits us ++ bytes)
    rw [encodeUnits, List.flatMap_cons, ← encodeUnits, hbytes, List.cons_append, List.cons_append,
      List.append_assoc, units, unitsAfter, hunit, unitsAfter_length, ih]
    rfl

theorem units_of_isPlain {bytes : Bytes} (h : ∀ b ∈ bytes, isPlain b = true) :
    units bytes = bytes.map fun b => .ofNat b.toNat := by
  induction bytes with
  | nil => rfl
  | cons b bytes ih =>
    obtain ⟨hb, hbytes⟩ := List.forall_mem_cons.mp h
    have hsmall : b.toNat < 0x80 := by
      rw [isPlain, Bool.and_eq_true, decide_eq_true_eq] at hb
      exact UInt8.lt_iff_toNat_lt.mp hb.2
    rw [units, unitsAfter, unitAt_one hsmall, List.map_cons, ← ih hbytes]
    rfl

theorem decode_units_of_bytes (bytes : Bytes) :
    Utf16.decode (bytes.map fun b => .ofNat b.toNat) = bytes.map fun b => Char.ofNat b.toNat := by
  induction bytes with
  | nil => rfl
  | cons b bytes ih =>
    have hb := b.toNat_lt
    obtain ⟨hhigh, hsingle⟩ := Utf16.single_ofNat (n := b.toNat) (by omega)
    rw [List.map_cons, List.map_cons, Utf16.decode_cons_of_not_isHigh hhigh, hsingle, ih]

/-- Plain text, too, comes to the characters of its units. -/
theorem decode_eq (bytes : Bytes) : decode bytes = Utf16.decode (units bytes) := by
  rw [decode]
  split
  · rename_i hplain
    rw [units_of_isPlain (List.all_eq_true.mp hplain), decode_units_of_bytes]
  · rfl

/-- A text is read back from its bytes, whatever follows them. -/
theorem decode_encode_append (text : List Char) (bytes : Bytes) :
    decode (encode text ++ bytes) = text ++ decode bytes := by
  rw [decode_eq, encode, units_encodeUnits_append, Utf16.decode_encode_append, ← decode_eq]

@[simp]
theorem decode_encode (text : List Char) : decode (encode text) = text := by
  rw [decode_eq, encode, ← List.append_nil (encodeUnits _), units_encodeUnits_append, units,
    unitsAfter, List.append_nil, Utf16.decode_encode]

/-- The characters of units are read back from their bytes, and so is what follows them unless the
last unit is a surrogate that waits for its partner. No two texts have the same bytes, and there is
one way of reading for plain and for all other text. -/
theorem decode_undoes_encode :
    (∀ (us : List UInt16) (bytes : Bytes), (∀ u ∈ us.getLast?, Utf16.isHigh u = false) →
      decode (encodeUnits us ++ bytes) = Utf16.decode us ++ decode bytes) ∧
    (∀ text : List Char, decode (encode text) = text) ∧
    (∀ text text' : List Char, text ≠ text' → decode (encode text) ≠ decode (encode text')) ∧
    ∀ bytes : Bytes, decode bytes = Utf16.decode (units bytes) := by
  refine ⟨fun us bytes hcomplete => ?_, decode_encode, fun text text' hne => ?_, decode_eq⟩
  · rw [decode_eq, units_encodeUnits_append, Utf16.decode_append hcomplete, ← decode_eq]
  · rwa [decode_encode, decode_encode]

/-- A pair of surrogates, one without a partner, and behind them another one and a broken byte. -/
theorem decode_surrogates :
    (∀ u ∈ ([0x61, 0xD83D, 0xDE00, 0xDC00] : List UInt16).getLast?, Utf16.isHigh u = false) ∧
      decode (encodeUnits [0x61, 0xD83D, 0xDE00, 0xDC00] ++ [0xED, 0xB8, 0x80, 0xFF]) =
        ['a', '😀', '\ufffd', '\ufffd', '\ufffd'] := by
  have hlast : ∀ u ∈ ([0x61, 0xD83D, 0xDE00, 0xDC00] : List UInt16).getLast?,
      Utf16.isHigh u = false := by
    intro u hu
    obtain rfl : 0xDC00 = u := Option.some.inj hu
    decide
  refine ⟨hlast, ?_⟩
  rw [decode_undoes_encode.1 _ _ hlast]
  decide

end JvmSymbols.ModifiedUtf8
