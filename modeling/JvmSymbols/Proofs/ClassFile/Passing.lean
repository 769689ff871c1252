import JvmSymbols.ClassFile.Contents
import JvmSymbols.Proofs.Digits
import Mathlib.Data.List.Forall2

/-!
# What a successful read has passed

`Cursor.Passes` relates a cursor to a later one by the bytes between them. Each decoder that succeeds
passes exactly the bytes of one construct, and the constructs of a sequence stand one behind another
(`Cursor.passes_append`), so that what a decoder accepts is read off its steps.
-/

namespace JvmSymbols

namespace Cursor

/-- The cursor `c'` is behind `bytes`, which `c` is before. -/
def Passes (c : Cursor) (bytes : Bytes) (c' : Cursor) : Prop :=
  c.rest = bytes ++ c'.rest ∧ c'.position = c.position + bytes.length

theorem passes_nil {c c' : Cursor} : c.Passes [] c' ↔ c = c' := by
  cases c; cases c'
  simp [Passes, and_comm, eq_comm]

theorem passes_append {c c'' : Cursor} {a b : Bytes} :
    c.Passes (a ++ b) c'' ↔ ∃ c', c.Passes a c' ∧ c'.Passes b c'' := by
  constructor
  · rintro ⟨hrest, hpos⟩
    refine ⟨⟨c.position + a.length, b ++ c''.rest⟩, ⟨by simpa using hrest, rfl⟩, rfl, ?_⟩
    rw [hpos, List.length_append, Nat.add_assoc]
  · rintro ⟨c', ⟨hrest, hpos⟩, hrest', hpos'⟩
    refine ⟨by rw [hrest, hrest', List.append_assoc], ?_⟩
    rw [hpos', hpos, List.length_append, Nat.add_assoc]

theorem passes_cons {c c'' : Cursor} {b : UInt8} {bytes : Bytes} :
    c.Passes (b :: bytes) c'' ↔ ∃ c', c.Passes [b] c' ∧ c'.Passes bytes c'' :=
  passes_append (a := [b])

theorem take_eq_ok_iff {c c' : Cursor} {n : Nat} {bytes : Bytes} :
    c.take n = .ok (bytes, c') ↔ bytes.length = n ∧ c.Passes bytes c' := by
  constructor
  · intro h
    by_cases hn : n ≤ c.remaining
    · rw [take_of_le hn] at h
      simp only [Except.ok.injEq, Prod.mk.injEq] at h
      obtain ⟨rfl, rfl⟩ := h
      have hlen : (c.rest.take n).length = n := List.length_take_of_le hn
      exact ⟨hlen, (List.take_append_drop n c.rest).symm, by rw [hlen]⟩
    · rw [take_of_lt (Nat.lt_of_not_le hn)] at h
      exact nomatch h
  · rintro ⟨rfl, hrest, hpos⟩
    rw [take_of_le (by simp [remaining, hrest])]
    simp [hrest, ← hpos]

end Cursor

namespace ClassFile.Decoder

variable {α β : Type} {c c' : Cursor}

/-! ## Decoders that succeed -/

theorem pure_eq_ok_iff {a b : α} : (pure a : Decoder α) c = .ok b c' ↔ a = b ∧ c = c' := by
  change EStateM.Result.ok a c = .ok b c' ↔ _
  simp

theorem throw_eq_ok_iff {fault : Fault} {a : α} :
    (throw fault : Decoder α) c = .ok a c' ↔ False := by
  change EStateM.Result.error fault c = .ok a c' ↔ _
  simp

theorem bind_eq_ok_iff {p : Decoder α} {f : α → Decoder β} {b : β} :
    (p >>= f) c = .ok b c' ↔ ∃ a c₁, p c = .ok a c₁ ∧ f a c₁ = .ok b c' := by
  change EStateM.bind p f c = .ok b c' ↔ _
  unfold EStateM.bind
  cases p c with
  | ok a c₁ => simp [and_assoc]
  | error fault c₁ => simp

theorem discard_eq_ok_iff {p : Decoder α} {u : Unit} :
    (discard p : Decoder Unit) c = .ok u c' ↔ ∃ a, p c = .ok a c' := by
  change EStateM.map (fun _ => ()) p c = .ok u c' ↔ _
  unfold EStateM.map
  cases p c with
  | ok a c₁ => simp
  | error fault c₁ => simp

theorem ofExcept_eq_ok_iff {e : Except Fault α} {a : α} :
    ofExcept e c = .ok a c' ↔ e = .ok a ∧ c = c' := by
  cases e with
  | ok b => rw [ofExcept, pure_eq_ok_iff, Except.ok.injEq]
  | error fault => rw [ofExcept, throw_eq_ok_iff]; simp

theorem ofRead_eq_ok_iff {read : Cursor → Except Shortage (α × Cursor)} {a : α} :
    ofRead read c = .ok a c' ↔ read c = .ok (a, c') := by
  unfold ofRead
  rcases read c with shortage | ⟨b, c₁⟩ <;> simp

theorem take_eq_ok_iff {n : Nat} {bytes : Bytes} :
    take n c = .ok bytes c' ↔ bytes.length = n ∧ c.Passes bytes c' := by
  rw [take, ofRead_eq_ok_iff, Cursor.take_eq_ok_iff]

/-- A read that makes something of the bytes it takes. -/
private theorem ofRead_map_eq_ok_iff {f : Bytes → α} {n : Nat} {a : α} :
    ofRead (fun c => (c.take n).map fun (bytes, c) => (f bytes, c)) c = .ok a c' ↔
      ∃ bytes, bytes.length = n ∧ f bytes = a ∧ c.Passes bytes c' := by
  rw [ofRead_eq_ok_iff]
  constructor
  · intro h
    rcases htake : c.take n with shortage | ⟨bytes, c₁⟩ <;> rw [htake] at h
    · exact nomatch h
    · obtain ⟨rfl, rfl⟩ : f bytes = a ∧ c₁ = c' := by simpa [Except.map] using h
      obtain ⟨hlen, hpass⟩ := Cursor.take_eq_ok_iff.mp htake
      exact ⟨bytes, hlen, rfl, hpass⟩
  · rintro ⟨bytes, hlen, rfl, hpass⟩
    rw [Cursor.take_eq_ok_iff.mpr ⟨hlen, hpass⟩]
    rfl

theorem skip_eq_ok_iff {n : Nat} {u : Unit} :
    skip n c = .ok u c' ↔ ∃ bytes, bytes.length = n ∧ c.Passes bytes c' := by
  refine (ofRead_map_eq_ok_iff (f := fun _ => ())).trans ?_
  simp

theorem u8_eq_ok_iff {b : UInt8} : u8 c = .ok b c' ↔ c.Passes [b] c' := by
  refine (ofRead_map_eq_ok_iff (f := fun bytes => UInt8.ofNat bytes.bigEndian)).trans
    ⟨?_, fun h => ⟨[b], rfl, ?_, h⟩⟩
  · rintro ⟨bytes, hlen, rfl, hpass⟩
    obtain ⟨b, rfl⟩ := List.length_eq_one_iff.mp hlen
    simpa [Bytes.bigEndian] using hpass
  · simp [Bytes.bigEndian]

theorem u16_eq_ok_iff {n : UInt16} : u16 c = .ok n c' ↔ c.Passes (encode16 n) c' := by
  refine (ofRead_map_eq_ok_iff (f := fun bytes => UInt16.ofNat bytes.bigEndian)).trans
    ⟨?_, fun h => ⟨encode16 n, Bytes.length_ofNat .., ?_, h⟩⟩
  · rintro ⟨bytes, hlen, rfl, hpass⟩
    have hlt : bytes.bigEndian < 2 ^ 16 := by simpa [hlen] using bytes.bigEndian_lt
    rwa [encode16, UInt16.toNat_ofNat_of_lt' hlt, ← hlen, Bytes.ofNat_bigEndian]
  · have hlt : n.toNat < 256 ^ 2 := n.toNat_lt
    rw [encode16, Bytes.bigEndian_ofNat, Nat.mod_eq_of_lt hlt, UInt16.ofNat_toNat]

theorem u32_eq_ok_iff {n : UInt32} : u32 c = .ok n c' ↔ c.Passes (Bytes.ofNat 4 n.toNat) c' := by
  refine (ofRead_map_eq_ok_iff (f := fun bytes => UInt32.ofNat bytes.bigEndian)).trans
    ⟨?_, fun h => ⟨_, Bytes.length_ofNat .., ?_, h⟩⟩
  · rintro ⟨bytes, hlen, rfl, hpass⟩
    have hlt : bytes.bigEndian < 2 ^ 32 := by simpa [hlen] using bytes.bigEndian_lt
    rwa [UInt32.toNat_ofNat_of_lt' hlt, ← hlen, Bytes.ofNat_bigEndian]
  · have hlt : n.toNat < 256 ^ 4 := n.toNat_lt
    rw [Bytes.bigEndian_ofNat, Nat.mod_eq_of_lt hlt, UInt32.ofNat_toNat]

/-! ## Tables -/

/-- The decoder succeeds exactly behind a well-formed construct, with a value that it stands for. -/
def Decodes {ι : Type} (p : Decoder α) (encode : ι → Bytes) (Means : ι → α → Prop) : Prop :=
  ∀ c a c', p c = .ok a c' ↔ ∃ x, Means x a ∧ c.Passes (encode x) c'

variable {ι : Type} {p : Decoder α} {encode : ι → Bytes} {Means : ι → α → Prop}

theorem Decodes.runTimes (h : Decodes p encode Means) {n : Nat} {as : List α} :
    runTimes p n c = .ok as c' ↔
      ∃ xs, xs.length = n ∧ List.Forall₂ Means xs as ∧ c.Passes (xs.flatMap encode) c' := by
  induction n generalizing c c' as with
  | zero =>
    rw [JvmSymbols.runTimes, pure_eq_ok_iff, ← Cursor.passes_nil]
    constructor
    · rintro ⟨rfl, hpass⟩
      exact ⟨[], rfl, .nil, hpass⟩
    · rintro ⟨xs, hlen, hall, hpass⟩
      cases List.eq_nil_of_length_eq_zero hlen
      cases hall
      exact ⟨rfl, hpass⟩
  | succ n ih =>
    simp only [JvmSymbols.runTimes, bind_eq_ok_iff, pure_eq_ok_iff, ih, h c]
    constructor
    · rintro ⟨a, c₁, ⟨x, hx, hpass⟩, as, _, ⟨xs, rfl, hall, hpass'⟩, rfl, rfl⟩
      exact ⟨x :: xs, rfl, .cons hx hall, Cursor.passes_append.mpr ⟨c₁, hpass, hpass'⟩⟩
    · rintro ⟨_ | ⟨x, xs⟩, hlen, hall, hpass⟩
      · exact nomatch hlen
      obtain ⟨c₁, hpass, hpass'⟩ := Cursor.passes_append.mp hpass
      obtain _ | ⟨hx, hall⟩ := hall
      exact ⟨_, c₁, ⟨x, hx, hpass⟩, _, c', ⟨xs, Nat.succ.inj hlen, hall, hpass'⟩, rfl, rfl⟩

/-- A table is read off its length. -/
theorem Decodes.table (h : Decodes p encode Means) {as : List α} :
    (do let count ← u16; JvmSymbols.runTimes p count.toNat : Decoder (List α)) c = .ok as c' ↔
      ∃ xs, xs.length < 2 ^ 16 ∧ List.Forall₂ Means xs as ∧ c.Passes (encodeTable encode xs) c' := by
  simp only [bind_eq_ok_iff, u16_eq_ok_iff, h.runTimes, encodeTable, Cursor.passes_append]
  constructor
  · rintro ⟨n, c₁, hn, xs, hlen, hall, hpass⟩
    refine ⟨xs, hlen ▸ n.toNat_lt, hall, c₁, ?_, hpass⟩
    rwa [hlen]
  · rintro ⟨xs, hlen, hall, c₁, hn, hpass⟩
    have htoNat : (UInt16.ofNat xs.length).toNat = xs.length := UInt16.toNat_ofNat_of_lt' hlen
    exact ⟨.ofNat xs.length, c₁, by rwa [encode16, htoNat], xs, htoNat.symm, hall, hpass⟩

end ClassFile.Decoder

end JvmSymbols
