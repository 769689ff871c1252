import JvmSymbols.ClassFile.Decoder
import JvmSymbols.Proofs.Digits

/-!
# Reads one behind another

A read either takes the bytes that it asks for or leaves the cursor where it is (`Read.decoder_of_le`,
`Read.decoder_of_lt`). So the cursor stays in its buffer (`Cursor.IsIn`), and what the successful reads
take lies side by side from the start of the buffer up to the cursor (`reads_tile`). Nothing changes
where places are counted in machine words (`Cursor.IsIn.takeInWords_eq`).
-/

namespace JvmSymbols

/-! ## A cursor in its buffer -/

namespace Cursor

variable {buffer : Bytes} {c : Cursor}

/-- The cursor stands inside `buffer`, and what lies ahead of it is what the buffer has left. -/
structure IsIn (c : Cursor) (buffer : Bytes) : Prop where
  position_le : c.position ≤ buffer.length
  rest_eq : c.rest = buffer.drop c.position

namespace IsIn

theorem ofBytes (buffer : Bytes) : (ofBytes buffer).IsIn buffer := ⟨Nat.zero_le _, rfl⟩

theorem position_add_remaining (h : c.IsIn buffer) : c.position + c.remaining = buffer.length := by
  rw [remaining, h.rest_eq, List.length_drop, Nat.add_sub_cancel' h.position_le]

theorem drop_rest (h : c.IsIn buffer) (n : Nat) : c.rest.drop n = buffer.drop (c.position + n) := by
  rw [h.rest_eq, List.drop_drop]

theorem advance (h : c.IsIn buffer) {n : Nat} (hn : n ≤ c.remaining) :
    IsIn ⟨c.position + n, c.rest.drop n⟩ buffer where
  position_le := by
    rw [← h.position_add_remaining]
    exact Nat.add_le_add_left hn _
  rest_eq := h.drop_rest n

end IsIn

/-! ## Places in machine words -/

/-- A difference of words, if it does not wrap. -/
def checkedSub (a b : UInt64) : Option UInt64 :=
  if b ≤ a then some (a - b) else none

/-- A sum of words, if it does not wrap. -/
def checkedAdd (a b : UInt64) : Option UInt64 :=
  if a.toNat + b.toNat < 2 ^ 64 then some (a + b) else none

/-- The bytes of a buffer from one place to another, if both are in it and in this order. -/
def slice (buffer : Bytes) (start stop : UInt64) : Option Bytes :=
  if start ≤ stop ∧ stop.toNat ≤ buffer.length then
    some ((buffer.drop start.toNat).take (stop - start).toNat)
  else
    none

/-- `Cursor.take` where a cursor is a buffer and a place in it. There is no result if a place wraps or
if the slice is not in the buffer. -/
def takeInWords (buffer : Bytes) (position n : UInt64) :
    Option (Except Shortage (Bytes × UInt64)) := do
  let remaining ← checkedSub (UInt64.ofNat buffer.length) position
  if remaining < n then
    return .error ⟨position.toNat, n.toNat, remaining.toNat⟩
  let stop ← checkedAdd position n
  let bytes ← slice buffer position stop
  return .ok (bytes, stop)

theorem checkedSub_ofNat {m n : Nat} (hm : m < 2 ^ 64) (h : n ≤ m) :
    checkedSub (UInt64.ofNat m) (UInt64.ofNat n) = some (UInt64.ofNat (m - n)) := by
  have hn : n < 2 ^ 64 := Nat.lt_of_le_of_lt h hm
  have hle : UInt64.ofNat n ≤ UInt64.ofNat m := (UInt64.ofNat_le_iff_le hn hm).mpr h
  rw [checkedSub, if_pos hle, UInt64.ofNat_sub h]

theorem checkedAdd_ofNat {m n : Nat} (h : m + n < 2 ^ 64) :
    checkedAdd (UInt64.ofNat m) (UInt64.ofNat n) = some (UInt64.ofNat (m + n)) := by
  have hm : m < 2 ^ 64 := Nat.lt_of_le_of_lt (Nat.le_add_right m n) h
  have hn : n < 2 ^ 64 := Nat.lt_of_le_of_lt (Nat.le_add_left n m) h
  rw [checkedAdd, UInt64.toNat_ofNat_of_lt' hm, UInt64.toNat_ofNat_of_lt' hn, if_pos h,
    UInt64.ofNat_add]

theorem slice_ofNat {start n : Nat} (hlength : buffer.length < 2 ^ 64)
    (h : start + n ≤ buffer.length) :
    slice buffer (UInt64.ofNat start) (UInt64.ofNat (start + n)) =
      some ((buffer.drop start).take n) := by
  have hstop : start + n < 2 ^ 64 := Nat.lt_of_le_of_lt h hlength
  have hstart : start < 2 ^ 64 := Nat.lt_of_le_of_lt (Nat.le_add_right start n) hstop
  have hn : n < 2 ^ 64 := Nat.lt_of_le_of_lt (Nat.le_add_left n start) hstop
  have hle : UInt64.ofNat start ≤ UInt64.ofNat (start + n) :=
    (UInt64.ofNat_le_iff_le hstart hstop).mpr (Nat.le_add_right start n)
  have hwidth : UInt64.ofNat (start + n) - UInt64.ofNat start = UInt64.ofNat n := by
    rw [← UInt64.ofNat_sub (Nat.le_add_right start n), Nat.add_sub_cancel_left]
  rw [slice, hwidth, UInt64.toNat_ofNat_of_lt' hstop, UInt64.toNat_ofNat_of_lt' hstart,
    UInt64.toNat_ofNat_of_lt' hn, if_pos ⟨hle, h⟩]

/-- In a buffer that words can measure no place wraps, however many bytes are asked for. -/
theorem IsIn.takeInWords_eq (h : c.IsIn buffer) (hlength : buffer.length < 2 ^ 64) {n : Nat}
    (hn : n < 2 ^ 64) :
    takeInWords buffer (UInt64.ofNat c.position) (UInt64.ofNat n) =
      some ((c.take n).map fun (bytes, c') => (bytes, UInt64.ofNat c'.position)) := by
  have hsum := h.position_add_remaining
  have hposition : c.position < 2 ^ 64 := by omega
  have hremaining : c.remaining < 2 ^ 64 := by omega
  have hleft : buffer.length - c.position = c.remaining := by omega
  rw [takeInWords, checkedSub_ofNat hlength h.position_le, hleft]
  -- both sides of the comparison fit a word, so words compare as numbers
  simp only [Option.bind_eq_bind, Option.bind_some, UInt64.ofNat_lt_iff_lt hremaining hn]
  by_cases hle : n ≤ c.remaining
  · have hstop : c.position + n ≤ buffer.length := by omega
    rw [if_neg (Nat.not_lt.mpr hle), checkedAdd_ofNat (Nat.lt_of_le_of_lt hstop hlength),
      Option.bind_some, slice_ofNat hlength hstop, take_of_le hle, h.rest_eq]
    rfl
  · have hlt := Nat.lt_of_not_le hle
    rw [if_pos hlt, take_of_lt hlt, UInt64.toNat_ofNat_of_lt' hposition,
      UInt64.toNat_ofNat_of_lt' hn, UInt64.toNat_ofNat_of_lt' hremaining]
    rfl

end Cursor

namespace ClassFile

variable {buffer : Bytes} {c : Cursor}

/-! ## One read -/

/-- A read of a number, of some bytes, or of some bytes that are not kept. -/
inductive Read
  | u8 | u16 | u32
  | take (n : Nat)
  | skip (n : Nat)
  deriving DecidableEq, Repr

theorem Decoder.map_take_congr {α : Type} {f g : Bytes → α} {n : Nat}
    (h : ∀ bytes : Bytes, bytes.length = n → f bytes = g bytes) :
    f <$> Decoder.take n = g <$> Decoder.take n := by
  funext c
  by_cases hn : n ≤ c.remaining
  · have hbytes := h (c.rest.take n) (List.length_take_of_le hn)
    simp [Functor.map, EStateM.map, Decoder.take, ofRead, Cursor.take_of_le hn, hbytes]
  · have hlt := Nat.lt_of_not_le hn
    simp [Functor.map, EStateM.map, Decoder.take, ofRead, Cursor.take_of_lt hlt]

namespace Read

/-- What a read gives. -/
inductive Value
  | number (n : Nat)
  | bytes (bytes : Bytes)
  | nothing
  deriving DecidableEq, Repr

/-- How many bytes the read takes. -/
def width : Read → Nat
  | u8 => 1
  | u16 => 2
  | u32 => 4
  | take n => n
  | skip n => n

/-- What the read makes of the bytes that it takes. -/
def value (read : Read) (bytes : Bytes) : Value :=
  match read with
  | u8 | u16 | u32 => .number bytes.bigEndian
  | take _ => .bytes bytes
  | skip _ => .nothing

def decoder : Read → Decoder Value
  | u8 => (fun n => .number n.toNat) <$> Decoder.u8
  | u16 => (fun n => .number n.toNat) <$> Decoder.u16
  | u32 => (fun n => .number n.toNat) <$> Decoder.u32
  | take n => .bytes <$> Decoder.take n
  | skip n => (fun _ => .nothing) <$> Decoder.skip n

/-- Where the cursor stands behind the read, whether or not it succeeded. -/
def next (read : Read) (c : Cursor) : Cursor :=
  match read.decoder c with
  | .ok _ c' => c'
  | .error _ c' => c'

variable {read : Read}

/-- Every read takes some bytes first and makes its value of them: a number of that many digits is
never cut off. -/
theorem decoder_eq_map_take (read : Read) :
    read.decoder = read.value <$> Decoder.take read.width := by
  cases read with
  | u8 =>
    rw [decoder, Decoder.u8_eq_map_take, Functor.map_map]
    refine Decoder.map_take_congr fun bytes h => congrArg Value.number ?_
    exact UInt8.toNat_ofNat_of_lt' (Bytes.bigEndian_lt_of_length h)
  | u16 =>
    rw [decoder, Decoder.u16_eq_map_take, Functor.map_map]
    refine Decoder.map_take_congr fun bytes h => congrArg Value.number ?_
    exact UInt16.toNat_ofNat_of_lt' (Bytes.bigEndian_lt_of_length h)
  | u32 =>
    rw [decoder, Decoder.u32_eq_map_take, Functor.map_map]
    refine Decoder.map_take_congr fun bytes h => congrArg Value.number ?_
    exact UInt32.toNat_ofNat_of_lt' (Bytes.bigEndian_lt_of_length h)
  | take n => rfl
  | skip n =>
    rw [decoder, Decoder.skip_eq_map_take, Functor.map_map]
    rfl

theorem decoder_of_le (h : read.width ≤ c.remaining) :
    read.decoder c = .ok (read.value (c.rest.take read.width))
      ⟨c.position + read.width, c.rest.drop read.width⟩ := by
  rw [decoder_eq_map_take]
  simp [Functor.map, EStateM.map, Decoder.take, Decoder.ofRead, Cursor.take_of_le h]

theorem decoder_of_lt (h : c.remaining < read.width) :
    read.decoder c = .error (.truncated ⟨c.position, read.width, c.remaining⟩) c := by
  rw [decoder_eq_map_take]
  simp [Functor.map, EStateM.map, Decoder.take, Decoder.ofRead, Cursor.take_of_lt h]

theorem next_of_le (h : read.width ≤ c.remaining) :
    read.next c = ⟨c.position + read.width, c.rest.drop read.width⟩ := by
  rw [next, decoder_of_le h]

theorem next_of_lt (h : c.remaining < read.width) : read.next c = c := by
  rw [next, decoder_of_lt h]

theorem next_isIn (read : Read) (h : c.IsIn buffer) : (read.next c).IsIn buffer := by
  by_cases hwidth : read.width ≤ c.remaining
  · rw [next_of_le hwidth]
    exact h.advance hwidth
  · rw [next_of_lt (Nat.lt_of_not_le hwidth)]
    exact h

end Read

/-! ## A run of reads -/

/-- The cursor behind a run of reads, whichever of them succeed. -/
def afterReads (reads : List Read) (c : Cursor) : Cursor := reads.foldl (fun c read => read.next c) c

/-- Where each successful read of a run began, and how many bytes it took. -/
def spans : List Read → Cursor → List (Nat × Nat)
  | [], _ => []
  | read :: reads, c =>
    match read.decoder c with
    | .ok _ c' => (c.position, read.width) :: spans reads c'
    | .error _ c' => spans reads c'

/-- The places of the bytes that lie in some spans, span after span. -/
def places (spans : List (Nat × Nat)) : List Nat :=
  spans.flatMap fun (start, width) => List.range' start width

theorem afterReads_cons (read : Read) (reads : List Read) (c : Cursor) :
    afterReads (read :: reads) c = afterReads reads (read.next c) := rfl

theorem afterReads_isIn (reads : List Read) (h : c.IsIn buffer) :
    (afterReads reads c).IsIn buffer := by
  induction reads generalizing c with
  | nil => exact h
  | cons read reads ih => exact ih (read.next_isIn h)

theorem spans_cons_of_le {read : Read} (reads : List Read) (h : read.width ≤ c.remaining) :
    spans (read :: reads) c = (c.position, read.width) :: spans reads (read.next c) := by
  rw [spans, Read.next, Read.decoder_of_le h]

theorem spans_cons_of_lt {read : Read} (reads : List Read) (h : c.remaining < read.width) :
    spans (read :: reads) c = spans reads (read.next c) := by
  rw [spans, Read.next, Read.decoder_of_lt h]

/-- The spans of a run begin where the run began, end where it ended and leave nothing out. -/
theorem places_spans (reads : List Read) (c : Cursor) :
    ∃ n, (afterReads reads c).position = c.position + n ∧
      places (spans reads c) = List.range' c.position n := by
  -- a read that fails leaves the place, so the next span still begins where the last one ended
  induction reads generalizing c with
  | nil => exact ⟨0, rfl, rfl⟩
  | cons read reads ih =>
    obtain ⟨n, hposition, hplaces⟩ := ih (read.next c)
    rw [afterReads_cons]
    by_cases h : read.width ≤ c.remaining
    · rw [Read.next_of_le h] at hposition hplaces
      refine ⟨read.width + n, ?_, ?_⟩
      · rw [Read.next_of_le h, hposition, Nat.add_assoc]
      · rw [spans_cons_of_le reads h, places, List.flatMap_cons, ← places, Read.next_of_le h, hplaces,
          List.range'_append_1]
    · have hlt := Nat.lt_of_not_le h
      rw [spans_cons_of_lt reads hlt]
      rw [Read.next_of_lt hlt] at hposition hplaces ⊢
      exact ⟨n, hposition, hplaces⟩

/-- Behind any run of reads the cursor has split the buffer in two. The next read takes its bytes
from the second part if they are there and reports the shortage otherwise. The successful reads have
taken the first part, each byte once and in order. No place ever wraps in words that can hold the
length of the buffer. -/
theorem reads_tile (buffer : Bytes) (reads : List Read) :
    let c := afterReads reads (.ofBytes buffer)
    c.position + c.remaining = buffer.length ∧
      (∀ read : Read, read.decoder c =
        if read.width ≤ c.remaining then
          .ok (read.value ((buffer.drop c.position).take read.width))
            ⟨c.position + read.width, buffer.drop (c.position + read.width)⟩
        else
          .error (.truncated ⟨c.position, read.width, c.remaining⟩) c) ∧
      places (spans reads (.ofBytes buffer)) = List.range c.position ∧
      (buffer.length < 2 ^ 64 → ∀ n < 2 ^ 64,
        Cursor.takeInWords buffer (UInt64.ofNat c.position) (UInt64.ofNat n) =
          some ((c.take n).map fun (bytes, c') => (bytes, UInt64.ofNat c'.position))) := by
  intro c
  have hin : c.IsIn buffer := afterReads_isIn reads (.ofBytes buffer)
  refine ⟨hin.position_add_remaining, ?_, ?_, fun hlength n hn => hin.takeInWords_eq hlength hn⟩
  · intro read
    by_cases h : read.width ≤ c.remaining
    · rw [if_pos h, Read.decoder_of_le h, ← hin.rest_eq, ← hin.drop_rest]
    · rw [if_neg h, Read.decoder_of_lt (Nat.lt_of_not_le h)]
  · obtain ⟨n, hposition, hplaces⟩ := places_spans reads (.ofBytes buffer)
    have hposition : c.position = n := by
      rw [show c.position = 0 + n from hposition, Nat.zero_add]
    rw [hplaces, hposition, List.range_eq_range']
    rfl

theorem reads_tile_header :
    let buffer : Bytes := [0xCA, 0xFE, 0xBA, 0xBE, 0x00, 0x34, 0x07]
    let reads : List Read := [.u32, .take (2 ^ 64 - 1), .u16, .skip 0, .u16]
    let c := afterReads reads (.ofBytes buffer)
    c = ⟨6, [0x07]⟩ ∧
      spans reads (.ofBytes buffer) = [(0, 4), (4, 2), (6, 0)] ∧
      places (spans reads (.ofBytes buffer)) = List.range 6 ∧
      Read.u8.decoder c = .ok (.number 7) ⟨7, []⟩ ∧
      Cursor.takeInWords buffer (UInt64.ofNat 6) (UInt64.ofNat (2 ^ 64 - 1)) =
        some (.error ⟨6, 2 ^ 64 - 1, 1⟩) := by
  intro buffer reads c
  have hafter : afterReads reads (.ofBytes buffer) = ⟨6, [0x07]⟩ := by decide
  obtain ⟨-, hread, hplaces, hwords⟩ := reads_tile buffer reads
  rw [hafter] at hread hplaces hwords
  refine ⟨hafter, by decide, hplaces, ?_, ?_⟩
  · rw [show c = ⟨6, [0x07]⟩ from hafter, hread .u8]
    rfl
  · rw [hwords (by decide) (2 ^ 64 - 1) (by decide), Cursor.take_of_lt (by decide)]
    rfl

end ClassFile

end JvmSymbols
