import JvmSymbols.Proofs.ClassFile.Passing

/-!
# Entries and slots of the constant pool

The pool decoder passes exactly the entries that fill the declared slots (`Pool.decoder_eq_ok_iff`),
and a lookup in the pool of these entries finds an entry exactly at the slot where it begins
(`Pool.utf8Bytes_eq_ok_iff`, `Pool.className_eq_ok_iff`).
-/

namespace JvmSymbols.ClassFile

open Decoder

variable {c c' : Cursor} {count next : Nat} {entries : List Entry} {index : UInt16}

/-! ## Reading entries -/

theorem Tag.ofByte?_eq_some_iff {b : UInt8} {tag : Tag} : ofByte? b = some tag ↔ b = tag.byte := by
  refine ⟨fun h => ?_, fun h => h ▸ ofByte?_byte tag⟩
  unfold ofByte? at h
  split at h <;> cases h
  all_goals exact UInt8.toNat_inj.mp ‹_›

theorem Entry.decoder_eq_ok_iff {slot : Nat} {e : Entry} :
    decoder slot c = .ok e c' ↔ e.WellFormed ∧ c.Passes e.encode c' := by
  simp only [decoder, bind_eq_ok_iff, u8_eq_ok_iff]
  constructor
  · rintro ⟨byte, c₁, hbyte, h⟩
    rcases htag : Tag.ofByte? byte with _ | tag <;> rw [htag] at h
    · exact (throw_eq_ok_iff.mp h).elim
    cases Tag.ofByte?_eq_some_iff.mp htag
    cases tag
    case utf8 =>
      simp only [bind_eq_ok_iff, u16_eq_ok_iff, Decoder.take_eq_ok_iff, pure_eq_ok_iff] at h
      obtain ⟨n, c₂, hn, text, _, ⟨hlen, htext⟩, rfl, rfl⟩ := h
      have hlt : text.length < 2 ^ 16 := hlen ▸ n.toNat_lt
      refine ⟨hlt, Cursor.passes_append.mpr ⟨c₂, ?_, htext⟩⟩
      refine Cursor.passes_cons.mpr ⟨c₁, hbyte, ?_⟩
      rwa [hlen]
    case classRef =>
      simp only [bind_eq_ok_iff, u16_eq_ok_iff, pure_eq_ok_iff] at h
      obtain ⟨n, _, hn, rfl, rfl⟩ := h
      exact ⟨trivial, Cursor.passes_cons.mpr ⟨c₁, hbyte, hn⟩⟩
    -- the payload of every other kind is passed over by its size
    all_goals
      simp only [bind_eq_ok_iff, Decoder.take_eq_ok_iff, pure_eq_ok_iff] at h
      obtain ⟨payload, _, ⟨hlen, hpass⟩, rfl, rfl⟩ := h
      exact ⟨⟨nofun, nofun, hlen⟩, Cursor.passes_cons.mpr ⟨c₁, hbyte, hpass⟩⟩
  · rintro ⟨hwf, hpass⟩
    cases e with
    | utf8 text =>
      obtain ⟨c₂, hfront, htext⟩ := Cursor.passes_append.mp hpass
      obtain ⟨c₁, hbyte, hn⟩ := Cursor.passes_cons.mp hfront
      have htoNat : (UInt16.ofNat text.length).toNat = text.length := UInt16.toNat_ofNat_of_lt' hwf
      refine ⟨Tag.utf8.byte, c₁, hbyte, ?_⟩
      simp only [Tag.ofByte?_byte, bind_eq_ok_iff, u16_eq_ok_iff, Decoder.take_eq_ok_iff,
        pure_eq_ok_iff]
      exact ⟨.ofNat text.length, c₂, by rwa [encode16, htoNat], text, c', ⟨htoNat.symm, htext⟩, rfl,
        rfl⟩
    | classRef nameIndex =>
      obtain ⟨c₁, hbyte, hn⟩ := Cursor.passes_cons.mp hpass
      refine ⟨Tag.classRef.byte, c₁, hbyte, ?_⟩
      simp only [Tag.ofByte?_byte, bind_eq_ok_iff, u16_eq_ok_iff, pure_eq_ok_iff]
      exact ⟨nameIndex, c', hn, rfl, rfl⟩
    | other tag payload =>
      obtain ⟨hutf8, hclass, hlen⟩ := hwf
      obtain ⟨c₁, hbyte, hpayload⟩ := Cursor.passes_cons.mp hpass
      refine ⟨tag.byte, c₁, hbyte, ?_⟩
      rw [Tag.ofByte?_byte]
      cases tag
      case utf8 => exact (hutf8 rfl).elim
      case classRef => exact (hclass rfl).elim
      all_goals
        simp only [bind_eq_ok_iff, Decoder.take_eq_ok_iff, pure_eq_ok_iff]
        exact ⟨payload, c', ⟨hlen, hpayload⟩, rfl, rfl⟩

/-! ## Filling the slots -/

theorem totalWidth_cons (e : Entry) (entries : List Entry) :
    totalWidth (e :: entries) = e.width + totalWidth entries := by
  simp [totalWidth]

theorem totalWidth_append (front back : List Entry) :
    totalWidth (front ++ back) = totalWidth front + totalWidth back := by
  simp [totalWidth]

/-- `Fills` for entries that begin at slot `next`. -/
def FillsFrom (count next : Nat) (entries : List Entry) : Prop :=
  count ≤ next + totalWidth entries ∧
    ∀ front last, entries = front ++ [last] → next + totalWidth front < count

theorem fillsFrom_nil : FillsFrom count next [] ↔ count ≤ next := by
  simp [FillsFrom, totalWidth]

theorem FillsFrom.lt (front : List Entry) {e : Entry} {back : List Entry}
    (h : FillsFrom count next entries) (heq : entries = front ++ e :: back) :
    next + totalWidth front < count := by
  rcases back.eq_nil_or_concat with rfl | ⟨back, last, rfl⟩
  · exact h.2 front e heq
  · have hlast := h.2 (front ++ e :: back) last (by simp [heq])
    rw [totalWidth_append] at hlast
    omega

theorem fillsFrom_cons {e : Entry} :
    FillsFrom count next (e :: entries) ↔
      next < count ∧ FillsFrom count (next + e.width) entries := by
  constructor
  · intro h
    refine ⟨by simpa [totalWidth] using h.lt [] rfl, ?_, fun front last heq => ?_⟩
    · have := h.1
      rw [totalWidth_cons] at this
      omega
    · have := h.lt (e :: front) (by rw [heq, List.cons_append])
      rw [totalWidth_cons] at this
      omega
  · rintro ⟨hnext, hfill, hlast⟩
    refine ⟨by rw [totalWidth_cons]; omega, fun front last heq => ?_⟩
    cases front with
    | nil => simpa [totalWidth] using hnext
    | cons _ front =>
      cases heq
      have := hlast front last rfl
      rw [totalWidth_cons]
      omega

theorem Entry.decoderFrom_eq_ok_iff :
    decoderFrom count next c = .ok entries c' ↔
      (∀ e ∈ entries, e.WellFormed) ∧ FillsFrom count next entries ∧
        c.Passes (entries.flatMap Entry.encode) c' := by
  fun_induction decoderFrom count next generalizing c c' entries with
  | case1 next hlt ih =>
    simp only [bind_eq_ok_iff, Entry.decoder_eq_ok_iff, pure_eq_ok_iff, ih]
    constructor
    · rintro ⟨e, c₁, ⟨hwf, hpass⟩, rest, _, ⟨hwfs, hfill, hpass'⟩, rfl, rfl⟩
      exact ⟨List.forall_mem_cons.mpr ⟨hwf, hwfs⟩, fillsFrom_cons.mpr ⟨hlt, hfill⟩,
        Cursor.passes_append.mpr ⟨c₁, hpass, hpass'⟩⟩
    · rintro ⟨hwfs, hfill, hpass⟩
      obtain _ | ⟨e, rest⟩ := entries
      · exact absurd (fillsFrom_nil.mp hfill) (Nat.not_le.mpr hlt)
      obtain ⟨c₁, hpass, hpass'⟩ := Cursor.passes_append.mp hpass
      obtain ⟨hwf, hwfs⟩ := List.forall_mem_cons.mp hwfs
      exact ⟨e, c₁, ⟨hwf, hpass⟩, rest, c', ⟨hwfs, (fillsFrom_cons.mp hfill).2, hpass'⟩, rfl, rfl⟩
  | case2 next hle =>
    rw [pure_eq_ok_iff, ← Cursor.passes_nil]
    constructor
    · rintro ⟨rfl, hpass⟩
      exact ⟨by simp, fillsFrom_nil.mpr (Nat.not_lt.mp hle), hpass⟩
    · rintro ⟨-, hfill, hpass⟩
      cases entries with
      | nil => exact ⟨rfl, hpass⟩
      | cons e rest => exact absurd (fillsFrom_cons.mp hfill).1 hle

theorem Pool.decoder_eq_ok_iff {pool : Pool} :
    Pool.decoder c = .ok pool c' ↔
      ∃ (n : UInt16) (entries : List Entry), (∀ e ∈ entries, e.WellFormed) ∧
        Fills n.toNat entries ∧ pool = Pool.ofEntries n.toNat entries ∧
          c.Passes (encode16 n ++ entries.flatMap Entry.encode) c' := by
  simp only [Pool.decoder, bind_eq_ok_iff, u16_eq_ok_iff, Entry.decoderFrom_eq_ok_iff,
    pure_eq_ok_iff, Cursor.passes_append]
  constructor
  · rintro ⟨n, c₁, hn, entries, _, ⟨hwf, hfill, hpass⟩, rfl, rfl⟩
    exact ⟨n, entries, hwf, hfill, rfl, c₁, hn, hpass⟩
  · rintro ⟨n, entries, hwf, hfill, rfl, c₁, hn, hpass⟩
    exact ⟨n, c₁, hn, entries, c', ⟨hwf, hfill, hpass⟩, rfl, rfl⟩

/-! ## Looking slots up -/

theorem length_flatMap_slots (entries : List Entry) :
    (entries.flatMap Entry.slots).length = totalWidth entries := by
  induction entries with
  | nil => rfl
  | cons e entries ih =>
    rw [List.flatMap_cons, List.length_append, ih, e.length_slots, totalWidth_cons]

theorem Entry.slot_eq_utf8_iff {e : Entry} {text : Bytes} : e.slot = .utf8 text ↔ e = .utf8 text := by
  cases e <;> simp [slot]

theorem Entry.slot_eq_classRef_iff {e : Entry} {nameIndex : UInt16} :
    e.slot = .classRef nameIndex ↔ e = .classRef nameIndex := by
  cases e <;> simp [slot]

/-- The first slot of an entry is its own. -/
theorem getElem?_flatMap_slots (front : List Entry) (e : Entry) (back : List Entry) :
    ((front ++ e :: back).flatMap Entry.slots)[totalWidth front]? = some e.slot := by
  rw [List.flatMap_append, ← length_flatMap_slots front, List.getElem?_append_right (Nat.le_refl _),
    Nat.sub_self]
  rfl

/-- Whatever is usable in a slot is an entry that begins there. -/
theorem exists_entry_of_getElem? {i : Nat} {s : Slot} (hs : s ≠ .unusable)
    (h : (entries.flatMap Entry.slots)[i]? = some s) :
    ∃ front e back, entries = front ++ e :: back ∧ i = totalWidth front ∧ e.slot = s := by
  induction entries generalizing i with
  | nil => simp at h
  | cons e entries ih =>
    rw [List.flatMap_cons, List.getElem?_append] at h
    split at h
    · cases i with
      | zero => exact ⟨[], e, entries, rfl, rfl, Option.some.inj h⟩
      | succ i =>
        -- the slots behind the first one of an entry are unusable
        have hmem : s ∈ List.replicate (e.width - 1) Slot.unusable := List.mem_of_getElem? h
        exact (hs (List.eq_of_mem_replicate hmem)).elim
    · obtain ⟨front, e', back, rfl, hi, rfl⟩ := ih h
      refine ⟨e :: front, e', back, rfl, ?_, rfl⟩
      rw [totalWidth_cons, ← hi, ← e.length_slots]
      omega

namespace Pool

theorem getElem?_slots_ofEntries (i : Nat) :
    (ofEntries count entries).slots[i + 1]? =
      if i + 1 < count then (entries.flatMap Entry.slots)[i]? else none := by
  rw [ofEntries, List.getElem?_toArray, List.getElem?_take, List.getElem?_cons_succ]

theorem slot_eq_ok_iff {pool : Pool} {s : Slot} :
    pool.slot index = .ok s ↔ index ≠ 0 ∧ pool.slots[index.toNat]? = some s := by
  unfold slot
  by_cases h : index = 0
  · simp [h]
  · rw [if_neg h]
    cases pool.slots[index.toNat]? <;> simp [h]

/-- In a pool that is filled, the usable slots are those where entries begin. -/
theorem slot_ofEntries_eq_ok_iff {s : Slot} (hs : s ≠ .unusable) (hfill : Fills count entries) :
    (ofEntries count entries).slot index = .ok s ↔ ∃ e, EntryAt entries index e ∧ e.slot = s := by
  rw [slot_eq_ok_iff]
  constructor
  · rintro ⟨hindex, h⟩
    obtain ⟨i, hi⟩ : ∃ i, index.toNat = i + 1 :=
      Nat.exists_eq_succ_of_ne_zero fun h0 => hindex (UInt16.toNat_inj.mp h0)
    rw [hi, getElem?_slots_ofEntries] at h
    split at h
    · obtain ⟨front, e, back, heq, rfl, rfl⟩ := exists_entry_of_getElem? hs h
      exact ⟨e, ⟨front, back, heq, by rw [hi, Nat.add_comm]⟩, rfl⟩
    · exact nomatch h
  · rintro ⟨e, ⟨front, back, heq, hindex⟩, rfl⟩
    have hlt : 1 + totalWidth front < count := FillsFrom.lt front hfill heq
    refine ⟨fun h0 => ?_, ?_⟩
    · rw [h0] at hindex
      rw [UInt16.toNat_zero] at hindex
      omega
    · rw [hindex, Nat.add_comm, getElem?_slots_ofEntries, if_pos (by omega), heq,
        getElem?_flatMap_slots]

variable (hfill : Fills count entries)
include hfill

theorem utf8Bytes_eq_ok_iff {text : Bytes} :
    (ofEntries count entries).utf8Bytes index = .ok text ↔ TextAt entries index text := by
  have hslot : (ofEntries count entries).slot index = .ok (.utf8 text) ↔
      TextAt entries index text := by
    simp [slot_ofEntries_eq_ok_iff (s := .utf8 text) nofun hfill, Entry.slot_eq_utf8_iff, TextAt]
  rw [← hslot, utf8Bytes]
  rcases (ofEntries count entries).slot index with fault | _ | _ | _ | _ <;>
    simp [bind, Except.bind, pure, Except.pure, throw, throwThe, MonadExceptOf.throw]

theorem expectUtf8_eq_ok_iff {u : Unit} :
    (ofEntries count entries).expectUtf8 index = .ok u ↔ ∃ text, TextAt entries index text := by
  simp only [← utf8Bytes_eq_ok_iff hfill, expectUtf8]
  cases (ofEntries count entries).utf8Bytes index <;> simp [discard, Functor.mapConst, Except.map]

theorem utf8_eq_ok_iff {name : String} :
    (ofEntries count entries).utf8 index = .ok name ↔
      ∃ text, TextAt entries index text ∧ name = String.ofList (ModifiedUtf8.decode text) := by
  simp only [← utf8Bytes_eq_ok_iff hfill, utf8]
  cases (ofEntries count entries).utf8Bytes index <;>
    simp [bind, Except.bind, pure, Except.pure, eq_comm]

theorem className_eq_ok_iff {name : String} :
    (ofEntries count entries).className index = .ok name ↔
      ∃ text, ClassNameAt entries index text ∧
        name = String.ofList (ModifiedUtf8.decode text) := by
  have hslot {nameIndex : UInt16} :
      (ofEntries count entries).slot index = .ok (.classRef nameIndex) ↔
        EntryAt entries index (.classRef nameIndex) := by
    simp [slot_ofEntries_eq_ok_iff (s := .classRef nameIndex) nofun hfill,
      Entry.slot_eq_classRef_iff]
  have hname : (ofEntries count entries).className index = .ok name ↔
      ∃ nameIndex, (ofEntries count entries).slot index = .ok (.classRef nameIndex) ∧
        (ofEntries count entries).utf8 nameIndex = .ok name := by
    rw [className]
    rcases (ofEntries count entries).slot index with fault | _ | _ | _ | _ <;>
      simp [bind, Except.bind, throw, throwThe, MonadExceptOf.throw]
  simp only [hname, hslot, utf8_eq_ok_iff hfill, ClassNameAt]
  constructor
  · rintro ⟨nameIndex, he, text, htext, rfl⟩
    exact ⟨text, ⟨nameIndex, he, htext⟩, rfl⟩
  · rintro ⟨text, ⟨nameIndex, he, htext⟩, rfl⟩
    exact ⟨nameIndex, he, text, htext, rfl⟩

end Pool

end JvmSymbols.ClassFile
