import JvmSymbols.Proofs.ClassFile.PoolSlots

/-!
# Lookups in the constant pool

A pool that is read from entries has what they say in each of its slots (`Pool.Aligned`): an entry
where it begins, and nothing usable in slot 0 and behind an entry that takes two slots. Each lookup
then has one answer at each index, and an unknown tag is told with the slot that it stands for
(`Pool.decoder_aligned`).
-/

namespace JvmSymbols.ClassFile

open Decoder

variable {c c' : Cursor} {count next : Nat} {entries : List Entry} {entry : Entry} {index : UInt16}

/-! ## Slots that entries take -/

/-- Whether slot `index` is the second one of an entry that takes two. -/
def SecondAt (entries : List Entry) (index : UInt16) : Prop :=
  ∃ front entry back, entries = front ++ entry :: back ∧ entry.width = 2 ∧
    index.toNat = 2 + totalWidth front

theorem Tag.width_le (tag : Tag) : tag.width ≤ 2 := by cases tag <;> decide

theorem Entry.width_le (entry : Entry) : entry.width ≤ 2 := entry.tag.width_le

theorem Entry.slot_ne_unusable (entry : Entry) : entry.slot ≠ .unusable := by
  cases entry <;> exact nofun

/-- Each slot that is taken is the first or the second one of an entry. -/
theorem exists_entry_of_lt {i : Nat} (h : i < totalWidth entries) :
    ∃ front entry back, entries = front ++ entry :: back ∧
      (i = totalWidth front ∨ entry.width = 2 ∧ i = 1 + totalWidth front) := by
  induction entries generalizing i with
  | nil => cases h
  | cons e entries ih =>
    by_cases hi : i < e.width
    · have hwidth := e.width_le
      refine ⟨[], e, entries, rfl, ?_⟩
      have hnil : totalWidth [] = 0 := rfl
      omega
    · rw [totalWidth_cons] at h
      obtain ⟨front, entry, back, rfl, hplace⟩ := ih (i := i - e.width) (by omega)
      refine ⟨e :: front, entry, back, rfl, ?_⟩
      rw [totalWidth_cons]
      omega

/-- The second slot of an entry is unusable. -/
theorem getElem?_flatMap_slots_second (front : List Entry) (back : List Entry)
    (hwide : entry.width = 2) :
    ((front ++ entry :: back).flatMap Entry.slots)[1 + totalWidth front]? = some .unusable := by
  have hsecond : entry.slots[1]? = some .unusable := by
    rw [Entry.slots, hwide]
    rfl
  have hlength : 1 < entry.slots.length := by
    rw [entry.length_slots, hwide]
    decide
  rw [List.flatMap_append, ← length_flatMap_slots front,
    List.getElem?_append_right (Nat.le_add_left _ _), Nat.add_sub_cancel, List.flatMap_cons,
    List.getElem?_append_left hlength, hsecond]

/-! ## What the lookups answer -/

namespace Pool

variable {pool : Pool} {fault : Fault}

/-- All lookups at `index` fail alike. -/
structure Refuses (pool : Pool) (index : UInt16) (fault : Fault) : Prop where
  tag : pool.tag index = .error fault
  expectUtf8 : pool.expectUtf8 index = .error fault
  utf8 : pool.utf8 index = .error fault
  className : pool.className index = .error fault

/-- There is no text at `index`. -/
structure LacksText (pool : Pool) (index : UInt16) : Prop where
  expectUtf8 : pool.expectUtf8 index = .error (.unexpectedConstant index .utf8)
  utf8 : pool.utf8 index = .error (.unexpectedConstant index .utf8)

/-- The lookups in a pool of `count` slots answer what the entries say, for every index. -/
structure Aligned (pool : Pool) (count : UInt16) (entries : List Entry) : Prop where
  count_eq : pool.count = count.toNat
  zero : pool.Refuses 0 (.unexpectedConstant 0 .usable)
  beyond {index : UInt16} : index ≠ 0 → count ≤ index →
    pool.Refuses index (.indexOutOfRange index count.toNat)
  /-- Below the count, each slot but the first is the first or the second one of an entry. -/
  within {index : UInt16} : index ≠ 0 → index < count →
    (∃ entry, EntryAt entries index entry) ∨ SecondAt entries index
  tag {index : UInt16} {entry : Entry} : EntryAt entries index entry →
    pool.tag index = .ok (some entry.tag)
  text {index : UInt16} {text : Bytes} : EntryAt entries index (.utf8 text) →
    pool.expectUtf8 index = .ok () ∧
      pool.utf8 index = .ok (String.ofList (ModifiedUtf8.decode text))
  lacksText {index : UInt16} {entry : Entry} : EntryAt entries index entry → entry.tag ≠ .utf8 →
    pool.LacksText index
  className {index nameIndex : UInt16} : EntryAt entries index (.classRef nameIndex) →
    pool.className index = pool.utf8 nameIndex
  lacksClass {index : UInt16} {entry : Entry} : EntryAt entries index entry →
    entry.tag ≠ .classRef → pool.className index = .error (.unexpectedConstant index .classRef)
  second {index : UInt16} : SecondAt entries index → index < count →
    pool.tag index = .ok none ∧ pool.LacksText index ∧
      pool.className index = .error (.unexpectedConstant index .classRef)

/-- Text is refused alike whether or not it is to be read. -/
theorem utf8_of_utf8Bytes_error (h : pool.utf8Bytes index = .error fault) :
    pool.expectUtf8 index = .error fault ∧ pool.utf8 index = .error fault := by
  constructor
  · rw [expectUtf8, h]
    rfl
  · rw [utf8, h]
    rfl

theorem refuses_of_slot (h : pool.slot index = .error fault) : pool.Refuses index fault := by
  have hbytes : pool.utf8Bytes index = .error fault := by
    rw [utf8Bytes, h]
    rfl
  obtain ⟨hexpect, hutf8⟩ := utf8_of_utf8Bytes_error hbytes
  refine ⟨?_, hexpect, hutf8, ?_⟩
  · rw [tag, h]
    rfl
  · rw [className, h]
    rfl

theorem lacksText_of_slot {s : Slot} (h : pool.slot index = .ok s) (hs : ∀ text, s ≠ .utf8 text) :
    pool.LacksText index := by
  have hbytes : pool.utf8Bytes index = .error (.unexpectedConstant index .utf8) := by
    rw [utf8Bytes, h]
    cases s with
    | utf8 text => exact absurd rfl (hs text)
    | unusable | classRef | other => rfl
  obtain ⟨hexpect, hutf8⟩ := utf8_of_utf8Bytes_error hbytes
  exact ⟨hexpect, hutf8⟩

theorem className_of_slot {s : Slot} (h : pool.slot index = .ok s)
    (hs : ∀ nameIndex, s ≠ .classRef nameIndex) :
    pool.className index = .error (.unexpectedConstant index .classRef) := by
  rw [className, h]
  cases s with
  | classRef nameIndex => exact absurd rfl (hs nameIndex)
  | unusable | utf8 | other => rfl

/-! ## Pools that entries fill -/

theorem slot_beyond (hindex : index ≠ 0) (h : pool.count ≤ index.toNat) :
    pool.slot index = .error (.indexOutOfRange index pool.count) := by
  rw [slot, if_neg hindex, Array.getElem?_eq_none h]

section
variable (hfill : Fills count entries)
include hfill

theorem count_ofEntries : (ofEntries count entries).count = count := by
  have hlength : count ≤ (Slot.unusable :: entries.flatMap Entry.slots).length := by
    rw [List.length_cons, length_flatMap_slots, Nat.add_comm]
    exact hfill.1
  rw [Pool.count, ofEntries, List.size_toArray, List.length_take_of_le hlength]

theorem slot_of_entryAt (h : EntryAt entries index entry) :
    (ofEntries count entries).slot index = .ok entry.slot :=
  (slot_ofEntries_eq_ok_iff entry.slot_ne_unusable hfill).mpr ⟨entry, h, rfl⟩

omit hfill in
theorem slot_of_secondAt (h : SecondAt entries index) (hindex : index.toNat < count) :
    (ofEntries count entries).slot index = .ok .unusable := by
  obtain ⟨front, entry, back, rfl, hwide, hplace⟩ := h
  have hplace' : index.toNat = (1 + totalWidth front) + 1 := by omega
  refine slot_eq_ok_iff.mpr ⟨?_, ?_⟩
  · rintro rfl
    rw [UInt16.toNat_zero] at hplace
    omega
  · rw [hplace', getElem?_slots_ofEntries, if_pos (hplace' ▸ hindex),
      getElem?_flatMap_slots_second front back hwide]

omit hfill in
theorem entryAt_or_secondAt (hcount : count ≤ 1 + totalWidth entries) (hindex : index ≠ 0)
    (hlt : index.toNat < count) :
    (∃ entry, EntryAt entries index entry) ∨ SecondAt entries index := by
  have hpos : 0 < index.toNat := Nat.pos_of_ne_zero fun h => hindex (UInt16.toNat_inj.mp h)
  have hbelow : index.toNat - 1 < totalWidth entries := by omega
  obtain ⟨front, entry, back, heq, hplace | ⟨hwide, hplace⟩⟩ := exists_entry_of_lt hbelow
  · exact .inl ⟨entry, front, back, heq, by omega⟩
  · exact .inr ⟨front, entry, back, heq, hwide, by omega⟩

end

theorem aligned_ofEntries {count : UInt16} (hfill : Fills count.toNat entries) :
    (ofEntries count.toNat entries).Aligned count entries where
  count_eq := count_ofEntries hfill
  zero := refuses_of_slot rfl
  beyond {index} hindex hle := by
    have hcount := count_ofEntries hfill
    refine refuses_of_slot ?_
    rw [slot_beyond hindex (hcount.symm ▸ hle), hcount]
  within hindex hlt := entryAt_or_secondAt hfill.1 hindex hlt
  tag {index entry} h := by
    rw [tag, slot_of_entryAt hfill h]
    cases entry <;> rfl
  text h := by
    have hbytes := (utf8Bytes_eq_ok_iff hfill).mpr h
    exact ⟨by rw [expectUtf8, hbytes]; rfl, by rw [utf8, hbytes]; rfl⟩
  lacksText {index entry} h htag := by
    refine lacksText_of_slot (slot_of_entryAt hfill h) fun text hslot => htag ?_
    rw [Entry.slot_eq_utf8_iff.mp hslot]
    rfl
  className h := by
    rw [className, slot_of_entryAt hfill h]
    rfl
  lacksClass {index entry} h htag := by
    refine className_of_slot (slot_of_entryAt hfill h) fun nameIndex hslot => htag ?_
    rw [Entry.slot_eq_classRef_iff.mp hslot]
    rfl
  second {index} h hlt := by
    have hslot : (ofEntries count.toNat entries).slot index = .ok .unusable :=
      slot_of_secondAt h hlt
    refine ⟨?_, lacksText_of_slot hslot ?_, className_of_slot hslot ?_⟩
    · rw [tag, hslot]
      rfl
    · rintro text ⟨⟩
    · rintro nameIndex ⟨⟩

end Pool

/-! ## Reading pools -/

namespace Decoder

variable {α β : Type}

theorem bind_of_ok {p : Decoder α} {f : α → Decoder β} {a : α} (h : p c = .ok a c') :
    (p >>= f) c = f a c' := by
  change EStateM.bind p f c = _
  rw [EStateM.bind, h]

theorem bind_of_error {p : Decoder α} {f : α → Decoder β} {fault : Fault}
    (h : p c = .error fault c') : (p >>= f) c = .error fault c' := by
  change EStateM.bind p f c = _
  rw [EStateM.bind, h]

end Decoder

theorem Tag.ofByte?_eq_none {byte : UInt8} (h : ∀ tag : Tag, tag.byte ≠ byte) :
    ofByte? byte = none :=
  Option.eq_none_iff_forall_ne_some.mpr fun tag htag => h tag (ofByte?_eq_some_iff.mp htag).symm

theorem Entry.decoder_of_unknown {byte : UInt8} (hbyte : ∀ tag : Tag, tag.byte ≠ byte)
    (hpass : c.Passes [byte] c') : decoder next c = .error (.unknownTag byte next) c' := by
  rw [decoder, bind_of_ok (u8_eq_ok_iff.mpr hpass), Tag.ofByte?_eq_none hbyte]
  rfl

/-- An unknown tag behind some entries ends the reading if a slot is left for it. -/
theorem Entry.decoderFrom_of_unknown {byte : UInt8} {c₁ : Cursor}
    (hbyte : ∀ tag : Tag, tag.byte ≠ byte) (hwf : ∀ e ∈ entries, e.WellFormed)
    (hpass : c.Passes (entries.flatMap Entry.encode) c₁) (hunknown : c₁.Passes [byte] c')
    (hlt : next + totalWidth entries < count) :
    decoderFrom count next c = .error (.unknownTag byte (next + totalWidth entries)) c' := by
  induction entries generalizing next c with
  | nil =>
    obtain rfl := Cursor.passes_nil.mp hpass
    rw [decoderFrom, if_pos (show next < count from hlt)]
    exact bind_of_error (decoder_of_unknown hbyte hunknown)
  | cons e entries ih =>
    obtain ⟨he, hwf⟩ := List.forall_mem_cons.mp hwf
    obtain ⟨c₂, hfirst, hrest⟩ := Cursor.passes_append.mp hpass
    rw [totalWidth_cons, ← Nat.add_assoc] at hlt ⊢
    rw [decoderFrom, if_pos (by omega), bind_of_ok (decoder_eq_ok_iff.mpr ⟨he, hfirst⟩)]
    exact bind_of_error (ih hwf hrest hlt)

theorem Pool.decoder_of_unknown {count : UInt16} {byte : UInt8} {c₁ : Cursor}
    (hbyte : ∀ tag : Tag, tag.byte ≠ byte) (hwf : ∀ e ∈ entries, e.WellFormed)
    (hpass : c.Passes (encode16 count ++ entries.flatMap Entry.encode) c₁)
    (hunknown : c₁.Passes [byte] c') (hlt : 1 + totalWidth entries < count.toNat) :
    Pool.decoder c = .error (.unknownTag byte (1 + totalWidth entries)) c' := by
  obtain ⟨c₂, hcount, hentries⟩ := Cursor.passes_append.mp hpass
  rw [Pool.decoder, bind_of_ok (u16_eq_ok_iff.mpr hcount)]
  exact bind_of_error (Entry.decoderFrom_of_unknown hbyte hwf hentries hunknown hlt)

/-- Entries that fill the declared slots are read up to the last one, whatever stands behind them,
and the lookups answer what they say. A byte behind them that is no tag is told with the slot that
it would begin, if there is one below the declared count. -/
theorem Pool.decoder_aligned (count : UInt16) (entries : List Entry)
    (hwf : ∀ e ∈ entries, e.WellFormed) (position : Nat) :
    let bytes := encode16 count ++ entries.flatMap Entry.encode
    (Fills count.toNat entries → ∀ rest : Bytes, ∃ pool : Pool,
      Pool.decoder ⟨position, bytes ++ rest⟩ = .ok pool ⟨position + bytes.length, rest⟩ ∧
        pool.Aligned count entries) ∧
    ∀ (byte : UInt8) (rest : Bytes), (∀ tag : Tag, tag.byte ≠ byte) →
      1 + totalWidth entries < count.toNat →
      Pool.decoder ⟨position, bytes ++ byte :: rest⟩ =
        .error (.unknownTag byte (1 + totalWidth entries))
          ⟨position + bytes.length + 1, rest⟩ := by
  intro bytes
  have hpass (rest : Bytes) :
      Cursor.Passes ⟨position, bytes ++ rest⟩ bytes ⟨position + bytes.length, rest⟩ := ⟨rfl, rfl⟩
  refine ⟨fun hfill rest => ?_, fun byte rest hbyte hlt => ?_⟩
  · exact ⟨_, Pool.decoder_eq_ok_iff.mpr ⟨count, entries, hwf, hfill, rfl, hpass rest⟩,
      Pool.aligned_ofEntries hfill⟩
  · exact Pool.decoder_of_unknown hbyte hwf (hpass (byte :: rest)) ⟨rfl, rfl⟩ hlt

/-- A number, a text, a reference to the text, one to the number, and a number that takes one slot
more than there is. -/
def mixedEntries : List Entry :=
  [.other .long (.replicate 8 7), .utf8 [97, 98], .classRef 3, .classRef 1,
    .other .double (.replicate 8 0)]

theorem fills_mixedEntries : Fills 7 mixedEntries := by
  refine ⟨by decide, fun front last heq => ?_⟩
  obtain rfl : mixedEntries.dropLast = front := by rw [heq, List.dropLast_concat]
  decide

theorem Pool.decoder_mixedEntries :
    let bytes (count : UInt16) := encode16 count ++ mixedEntries.flatMap Entry.encode
    (∀ e ∈ mixedEntries, e.WellFormed) ∧ Fills 7 mixedEntries ∧
    (∃ pool : Pool, Pool.decoder ⟨10, bytes 7 ++ [0, 33]⟩ = .ok pool ⟨41, [0, 33]⟩ ∧
      pool.Aligned 7 mixedEntries ∧ pool.tag 2 = .ok none ∧ pool.className 4 = .ok "ab" ∧
      pool.className 5 = .error (.unexpectedConstant 1 .utf8) ∧
      pool.Refuses 7 (.indexOutOfRange 7 7)) ∧
    (∀ tag : Tag, tag.byte ≠ 2) ∧ 1 + totalWidth mixedEntries < 9 ∧
    Pool.decoder ⟨10, bytes 9 ++ [2, 33]⟩ = .error (.unknownTag 2 8) ⟨42, [33]⟩ := by
  intro bytes
  have hwf : ∀ e ∈ mixedEntries, e.WellFormed := by
    simp [mixedEntries, Entry.WellFormed, Tag.payloadSize]
  have hunknown : ∀ tag : Tag, tag.byte ≠ 2 := by
    intro tag
    cases tag <;> decide
  have hclass : EntryAt mixedEntries 4 (.classRef 3) :=
    ⟨[.other .long (.replicate 8 7), .utf8 [97, 98]], _, rfl, rfl⟩
  have hbroken : EntryAt mixedEntries 5 (.classRef 1) :=
    ⟨[.other .long (.replicate 8 7), .utf8 [97, 98], .classRef 3], _, rfl, rfl⟩
  have hlong : EntryAt mixedEntries 1 (.other .long (.replicate 8 7)) := ⟨[], _, rfl, rfl⟩
  have htext : EntryAt mixedEntries 3 (.utf8 [97, 98]) :=
    ⟨[.other .long (.replicate 8 7)], _, rfl, rfl⟩
  obtain ⟨pool, hpool, haligned⟩ := (Pool.decoder_aligned 7 mixedEntries hwf 10).1
    fills_mixedEntries [0, 33]
  refine ⟨hwf, fills_mixedEntries, ⟨pool, hpool, haligned, ?_, ?_, ?_, ?_⟩, hunknown, by decide,
    (Pool.decoder_aligned 9 mixedEntries hwf 10).2 2 [33] hunknown (by decide)⟩
  · exact (haligned.second ⟨[], _, _, rfl, rfl, rfl⟩ (by decide)).1
  · rw [haligned.className hclass, (haligned.text htext).2]
    decide
  · rw [haligned.className hbroken, (haligned.lacksText hlong nofun).utf8]
  · exact haligned.beyond (by decide) (by decide)

end JvmSymbols.ClassFile
