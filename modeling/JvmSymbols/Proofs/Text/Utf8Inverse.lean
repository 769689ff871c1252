import JvmSymbols.Text.Utf8
import Mathlib.Data.List.TakeWhile
import Mathlib.Tactic.SplitIfs

/-!
# UTF-8 reads back what it writes

Each encoded character is read as itself and not a byte further (`charAt_append`), so that a whole
text comes back (`decode?_encode`) and no two texts have the same bytes.
-/

namespace JvmSymbols.Utf8

/-- The second byte of a character that is neither overlong nor a surrogate nor too large. -/
theorem exists_secondRange (lead second : UInt8) (hlow : 0xC2 ≤ lead.toNat)
    (hhigh : lead.toNat ≤ 0xF4) (hsecond : 0x80 ≤ second.toNat ∧ second.toNat ≤ 0xBF)
    (hE0 : lead.toNat = 0xE0 → 0xA0 ≤ second.toNat) (hED : lead.toNat = 0xED → second.toNat ≤ 0x9F)
    (hF0 : lead.toNat = 0xF0 → 0x90 ≤ second.toNat) (hF4 : lead.toNat = 0xF4 → second.toNat ≤ 0x8F) :
    ∃ low high, secondRange lead = some (low, high) ∧ (low ≤ second && second ≤ high) = true := by
  unfold secondRange
  simp only [beq_iff_eq, Bool.and_eq_true, decide_eq_true_eq, UInt8.le_iff_toNat_le, ← UInt8.toNat_inj,
    UInt8.reduceToNat]
  split_ifs
  case neg => omega
  all_goals
    refine ⟨_, _, rfl, ?_⟩
    simp only [UInt8.reduceToNat]
    omega

theorem toNat_ofNat_of_lt {n : Nat} (h : n < 256) : (UInt8.ofNat n).toNat = n :=
  UInt8.toNat_ofNat_of_lt' h

theorem isContinuation_ofNat (n : Nat) : isContinuation (.ofNat (n % 64 + 128)) = true := by
  have hbyte : (UInt8.ofNat (n % 64 + 128)).toNat = n % 64 + 128 := toNat_ofNat_of_lt (by omega)
  simp only [isContinuation, Bool.and_eq_true, decide_eq_true_eq, UInt8.le_iff_toNat_le, hbyte,
    UInt8.reduceToNat]
  omega

theorem payload_ofNat (n : Nat) : payload (.ofNat (n % 64 + 128)) = n % 64 := by
  rw [payload, toNat_ofNat_of_lt (by omega)]
  omega

theorem two_byte_lead (lead : UInt8) (h : lead.toNat < 0xE0) :
    tailLength lead = 0 ∧ leadPayload lead = lead.toNat % 32 := by
  have hlead : lead < 0xE0 := UInt8.lt_iff_toNat_lt.mpr h
  rw [tailLength, leadPayload, if_pos hlead, if_pos hlead]
  exact ⟨rfl, rfl⟩

theorem three_byte_lead (lead : UInt8) (hlow : 0xE0 ≤ lead.toNat) (hhigh : lead.toNat < 0xF0) :
    tailLength lead = 1 ∧ leadPayload lead = lead.toNat % 16 := by
  have hlow : ¬ lead < 0xE0 := UInt8.not_lt.mpr (UInt8.le_iff_toNat_le.mpr hlow)
  have hhigh : lead < 0xF0 := UInt8.lt_iff_toNat_lt.mpr hhigh
  rw [tailLength, leadPayload, if_neg hlow, if_neg hlow, if_pos hhigh, if_pos hhigh]
  exact ⟨rfl, rfl⟩

theorem four_byte_lead (lead : UInt8) (h : 0xF0 ≤ lead.toNat) :
    tailLength lead = 2 ∧ leadPayload lead = lead.toNat % 8 := by
  have hlow : ¬ lead < 0xE0 :=
    UInt8.not_lt.mpr (UInt8.le_iff_toNat_le.mpr (Nat.le_trans (by decide) h))
  have hhigh : ¬ lead < 0xF0 := UInt8.not_lt.mpr (UInt8.le_iff_toNat_le.mpr h)
  rw [tailLength, leadPayload, if_neg hlow, if_neg hlow, if_neg hhigh, if_neg hhigh]
  exact ⟨rfl, rfl⟩

/-- A longer character is read off its first byte and as many continuation bytes as that asks for. -/
theorem charAt_of_secondRange {lead second low high : UInt8} (tail : Bytes)
    (hlead : 0x80 ≤ lead.toNat)
    (hrange : secondRange lead = some (low, high)) (hsecond : (low ≤ second && second ≤ high) = true)
    (hlength : tail.length = tailLength lead) (htail : ∀ b ∈ tail, isContinuation b = true)
    (rest : Bytes) :
    charAt lead (second :: (tail ++ rest)) =
      (some (Char.ofNat ((second :: tail).foldl (fun n b => n * 64 + payload b) (leadPayload lead))),
        1 + tail.length) := by
  have hlong : ¬ lead < 0x80 := UInt8.not_lt.mpr (UInt8.le_iff_toNat_le.mpr hlead)
  have htake : ((tail ++ rest).take (tailLength lead)).takeWhile isContinuation = tail := by
    rw [← hlength, List.take_left, List.takeWhile_eq_self_iff]
    exact htail
  simp only [charAt, if_neg hlong, hrange, if_pos hsecond, htake, hlength, BEq.rfl, if_true]

/-- A character is read back from its bytes, whatever follows them. -/
theorem charAt_append (c : Char) (rest : Bytes) :
    ∃ lead tail, String.utf8EncodeChar c = lead :: tail ∧
      charAt lead (tail ++ rest) = (some c, tail.length) := by
  have hvalid : c.toNat < 0xD800 ∨ 0xDFFF < c.toNat ∧ c.toNat < 0x110000 := c.valid
  have hc : Char.ofNat c.toNat = c := Char.ofNat_toNat c
  have hval : c.val.toNat = c.toNat := rfl
  simp only [String.utf8EncodeChar, hval]
  generalize c.toNat = n at *
  by_cases h1 : n ≤ 0x7F
  · rw [if_pos h1]
    have hlead : (UInt8.ofNat n).toNat = n := toNat_ofNat_of_lt (by omega)
    have hshort : UInt8.ofNat n < 0x80 := by
      rw [UInt8.lt_iff_toNat_lt, hlead]
      exact Nat.lt_succ_of_le h1
    refine ⟨_, [], rfl, ?_⟩
    simp only [charAt, if_pos hshort, hlead, hc, List.length_nil]
  rw [if_neg h1]
  have hsecond (m : Nat) : (UInt8.ofNat (m % 64 + 128)).toNat = m % 64 + 128 :=
    toNat_ofNat_of_lt (by omega)
  by_cases h2 : n ≤ 0x7FF
  · rw [if_pos h2]
    have hlead : (UInt8.ofNat (n / 64 % 32 + 192)).toNat = n / 64 + 192 := by
      rw [toNat_ofNat_of_lt] <;> omega
    obtain ⟨htail, hpayload⟩ := two_byte_lead (.ofNat (n / 64 % 32 + 192)) (by omega)
    have hn : (n / 64 + 192) % 32 * 64 + n % 64 = n := by omega
    obtain ⟨low, high, hrange, hin⟩ :=
      exists_secondRange (.ofNat (n / 64 % 32 + 192)) (.ofNat (n % 64 + 128))
        (by omega) (by omega) (by simp only [hsecond]; omega) (by omega) (by omega) (by omega) (by omega)
    refine ⟨_, _, rfl, ?_⟩
    refine (charAt_of_secondRange [] (by omega) hrange hin htail.symm nofun rest).trans ?_
    simp only [List.foldl_cons, List.foldl_nil, payload_ofNat, hpayload, hlead, hn, hc]
    rfl
  rw [if_neg h2]
  by_cases h3 : n ≤ 0xFFFF
  · rw [if_pos h3]
    have hlead : (UInt8.ofNat (n / 4096 % 16 + 224)).toNat = n / 4096 + 224 := by
      rw [toNat_ofNat_of_lt] <;> omega
    obtain ⟨htail, hpayload⟩ := three_byte_lead (.ofNat (n / 4096 % 16 + 224)) (by omega) (by omega)
    have hn : ((n / 4096 + 224) % 16 * 64 + n / 64 % 64) * 64 + n % 64 = n := by omega
    obtain ⟨low, high, hrange, hin⟩ :=
      exists_secondRange (.ofNat (n / 4096 % 16 + 224)) (.ofNat (n / 64 % 64 + 128))
        (by omega) (by omega) (by simp only [hsecond]; omega) (by simp only [hlead, hsecond]; omega)
        (by simp only [hlead, hsecond]; omega) (by omega) (by omega)
    refine ⟨_, _, rfl, ?_⟩
    refine (charAt_of_secondRange [_] (by omega) hrange hin htail.symm ?_ rest).trans ?_
    · exact List.forall_mem_singleton.mpr (isContinuation_ofNat n)
    · simp only [List.foldl_cons, List.foldl_nil, payload_ofNat, hpayload, hlead, hn, hc]
      rfl
  rw [if_neg h3]
  have hlead : (UInt8.ofNat (n / 262144 % 8 + 240)).toNat = n / 262144 + 240 := by
    rw [toNat_ofNat_of_lt] <;> omega
  obtain ⟨htail, hpayload⟩ := four_byte_lead (.ofNat (n / 262144 % 8 + 240)) (by omega)
  have hn : (((n / 262144 + 240) % 8 * 64 + n / 4096 % 64) * 64 + n / 64 % 64) * 64 + n % 64 = n := by
    omega
  obtain ⟨low, high, hrange, hin⟩ :=
    exists_secondRange (.ofNat (n / 262144 % 8 + 240)) (.ofNat (n / 4096 % 64 + 128))
      (by omega) (by omega) (by simp only [hsecond]; omega) (by omega) (by omega)
      (by simp only [hlead, hsecond]; omega) (by simp only [hlead, hsecond]; omega)
  refine ⟨_, _, rfl, ?_⟩
  refine (charAt_of_secondRange [_, _] (by omega) hrange hin htail.symm ?_ rest).trans ?_
  · exact List.forall_mem_cons.mpr
      ⟨isContinuation_ofNat _, List.forall_mem_singleton.mpr (isContinuation_ofNat n)⟩
  · simp only [List.foldl_cons, List.foldl_nil, payload_ofNat, hpayload, hlead, hn, hc]
    rfl

/-! ## Whole texts -/

theorem decodeAfter_length (front rest : Bytes) :
    decodeAfter front.length (front ++ rest) = decodeAfter 0 rest := by
  induction front with
  | nil => rfl
  | cons b front ih => exact ih

theorem isValidAfter_length (front rest : Bytes) :
    isValidAfter front.length (front ++ rest) = isValidAfter 0 rest := by
  induction front with
  | nil => rfl
  | cons b front ih => exact ih

theorem decodeAfter_encode (text : List Char) :
    decodeAfter 0 (text.flatMap String.utf8EncodeChar) = text := by
  induction text with
  | nil => rfl
  | cons c text ih =>
    obtain ⟨lead, tail, hbytes, hchar⟩ := charAt_append c (text.flatMap String.utf8EncodeChar)
    rw [List.flatMap_cons, hbytes, List.cons_append, decodeAfter, hchar, decodeAfter_length, ih]
    rfl

theorem isValidAfter_encode (text : List Char) :
    isValidAfter 0 (text.flatMap String.utf8EncodeChar) = true := by
  induction text with
  | nil => rfl
  | cons c text ih =>
    obtain ⟨lead, tail, hbytes, hchar⟩ := charAt_append c (text.flatMap String.utf8EncodeChar)
    rw [List.flatMap_cons, hbytes, List.cons_append, isValidAfter, hchar, isValidAfter_length, ih]
    rfl

@[simp]
theorem decodeLossy_encode (text : String) : decodeLossy (encode text) = text := by
  rw [decodeLossy, encode, decodeAfter_encode, String.ofList_toList]

@[simp]
theorem decode?_encode (text : String) : decode? (encode text) = some text := by
  rw [decode?, decodeLossy_encode, encode, if_pos (isValidAfter_encode text.toList)]

theorem encode_injective : Function.Injective encode :=
  Function.LeftInverse.injective decodeLossy_encode

/-! ## Characters of one byte -/

theorem toNat_toUInt8 {c : Char} (h : c.toNat < 256) : c.toUInt8.toNat = c.toNat :=
  (UInt32.toNat_toUInt8 c.val).trans (Nat.mod_eq_of_lt h)

theorem ofNat_ne_toUInt8 {d : Char} (hd : d.toNat < 0x80) {n : Nat} (hlow : 0x80 ≤ n)
    (hhigh : n < 256) : UInt8.ofNat n ≠ d.toUInt8 := by
  intro h
  have htoNat := congrArg UInt8.toNat h
  rw [toNat_ofNat_of_lt hhigh, toNat_toUInt8 (by omega)] at htoNat
  omega

/-- A byte that is a character of one byte is not part of any other. -/
theorem count_utf8EncodeChar {d : Char} (hd : d.toNat < 0x80) (c : Char) :
    (String.utf8EncodeChar c).count d.toUInt8 = [c].count d := by
  have hc : c = d ↔ c.val.toNat = d.toNat := Char.toNat_inj.symm
  by_cases hlong : c.val.toNat ≤ 0x7F
  · have hbyte : UInt8.ofNat c.val.toNat = d.toUInt8 ↔ c = d := by
      rw [hc, ← UInt8.toNat_inj, toNat_ofNat_of_lt (by omega), toNat_toUInt8 (by omega)]
    rw [String.utf8EncodeChar, if_pos hlong, List.count_singleton, List.count_singleton]
    simp only [beq_iff_eq, hbyte]
  · have hother : d ∉ [c] := fun h => by
      have := hc.mp (List.mem_singleton.mp h).symm
      omega
    rw [List.count_eq_zero.mpr hother, List.count_eq_zero, String.utf8EncodeChar, if_neg hlong]
    split_ifs
    all_goals
      simp only [List.mem_cons, List.not_mem_nil, or_false, not_or]
      and_intros
    all_goals exact (ofNat_ne_toUInt8 hd (by omega) (by omega)).symm

theorem count_encode {d : Char} (hd : d.toNat < 0x80) (text : String) :
    (encode text).count d.toUInt8 = text.toList.count d := by
  rw [encode]
  induction text.toList with
  | nil => rfl
  | cons c rest ih =>
    rw [List.flatMap_cons, List.count_append, ih, count_utf8EncodeChar hd, ← List.count_append,
      List.singleton_append]

/-! ## Broken characters -/

theorem le_of_secondRange {lead low high : UInt8} (h : secondRange lead = some (low, high)) :
    0x80 ≤ low := by
  rw [secondRange] at h
  split_ifs at h <;> cases h <;> decide

/-- Whole or broken, a character spans no byte behind its first one that could begin another. -/
theorem span_charAt (lead : UInt8) (rest : Bytes) :
    ∀ b ∈ rest.take (charAt lead rest).2, 0x80 ≤ b := by
  unfold charAt
  split
  · exact nofun
  split
  · rename_i low high second more hrange
    split
    · rename_i hsecond
      have htail : (more.take (tailLength lead)).takeWhile isContinuation <+: more :=
        (List.takeWhile_prefix _).trans (List.take_prefix _ _)
      have hspan : ∀ b ∈ (second :: more).take
          (1 + ((more.take (tailLength lead)).takeWhile isContinuation).length), 0x80 ≤ b := by
        rw [Nat.add_comm, List.take_succ_cons, ← List.prefix_iff_eq_take.mp htail]
        refine List.forall_mem_cons.mpr ⟨?_, fun b hb => ?_⟩
        · rw [Bool.and_eq_true, decide_eq_true_eq] at hsecond
          exact UInt8.le_trans (le_of_secondRange hrange) hsecond.1
        · have hcontinuation := List.mem_takeWhile_imp hb
          simp only [isContinuation, Bool.and_eq_true, decide_eq_true_eq] at hcontinuation
          exact hcontinuation.1
      dsimp only
      split
      · exact hspan
      · exact hspan
    · exact nofun
  · exact nofun

/-- A byte that is a character of one byte is read as one whatever stands in front of it. -/
theorem exists_decodeAfter_append {b : UInt8} (hb : b < 0x80) {skipped : Nat} {front : Bytes}
    (h : skipped ≤ front.length) (back : Bytes) :
    ∃ text, decodeAfter skipped (front ++ b :: back) = text ++ decodeAfter 0 (b :: back) := by
  induction front generalizing skipped with
  | nil =>
    obtain rfl := Nat.le_zero.mp h
    exact ⟨[], rfl⟩
  | cons lead front ih =>
    cases skipped with
    | zero =>
      have hspan : (charAt lead (front ++ b :: back)).2 ≤ front.length := by
        by_contra hlong
        obtain ⟨more, hmore⟩ := Nat.exists_eq_add_of_lt (Nat.lt_of_not_le hlong)
        have hall := span_charAt lead (front ++ b :: back)
        rw [hmore, Nat.add_assoc, List.take_length_add_append, List.take_succ_cons] at hall
        exact absurd hb (UInt8.not_lt.mpr (hall b (by simp)))
      obtain ⟨text, htext⟩ := ih hspan
      exact ⟨_ :: text, congrArg (_ :: ·) htext⟩
    | succ skipped => exact ih (Nat.le_of_succ_le_succ h)

/-- What is read of bytes that end in such characters ends in them. -/
theorem exists_decodeLossy_append (front : Bytes) {b : UInt8} (hb : b < 0x80) (back : Bytes) :
    ∃ text, (decodeLossy (front ++ b :: back)).toList =
      text ++ (decodeLossy (b :: back)).toList := by
  obtain ⟨text, htext⟩ := exists_decodeAfter_append hb (Nat.zero_le front.length) back
  refine ⟨text, ?_⟩
  rw [decodeLossy, htext, decodeLossy, String.toList_ofList, String.toList_ofList]

end JvmSymbols.Utf8
