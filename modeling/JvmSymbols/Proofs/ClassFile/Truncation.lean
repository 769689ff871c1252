import JvmSymbols.Proofs.ClassFile.Passing
import Mathlib.Data.List.Basic

/-!
# Truncated class files

A decoder takes its bytes piece by piece and knows of the later ones only how many it lacks
(`Decoder.Stepwise`). So its result rests on the shortest front of the bytes for which it does not
report a shortage, and a shortage is told exactly (`Descriptor.ofBytes_prefix_stable`).
-/

namespace JvmSymbols.ClassFile

open Decoder

/-- The result does not blame the end of the bytes. -/
def Settled {α : Type} (result : Except Fault α) : Prop :=
  ∀ shortage, result ≠ .error (.truncated shortage)

/-! ## References into the pool -/

namespace Pool

variable (pool : Pool) (index : UInt16)

theorem settled_slot : Settled (pool.slot index) := by
  intro shortage
  unfold slot
  split
  · exact nofun
  · split <;> exact nofun

theorem settled_utf8Bytes : Settled (pool.utf8Bytes index) := by
  intro shortage h
  have hslot := pool.settled_slot index shortage
  rw [utf8Bytes] at h
  rcases hlook : pool.slot index with fault | _ | _ | _ | _ <;> rw [hlook] at h hslot
  · cases h
    exact hslot rfl
  all_goals cases h

theorem settled_expectUtf8 : Settled (pool.expectUtf8 index) := by
  intro shortage h
  have hbytes := pool.settled_utf8Bytes index shortage
  rw [expectUtf8] at h
  rcases hlook : pool.utf8Bytes index with fault | text <;> rw [hlook] at h hbytes
  · cases h
    exact hbytes rfl
  · cases h

theorem settled_utf8 : Settled (pool.utf8 index) := by
  intro shortage h
  have hbytes := pool.settled_utf8Bytes index shortage
  rw [utf8] at h
  rcases hlook : pool.utf8Bytes index with fault | text <;> rw [hlook] at h hbytes
  · cases h
    exact hbytes rfl
  · cases h

theorem settled_className : Settled (pool.className index) := by
  intro shortage h
  have hslot := pool.settled_slot index shortage
  rw [className] at h
  rcases hlook : pool.slot index with fault | _ | _ | nameIndex | _ <;> rw [hlook] at h hslot
  · cases h
    exact hslot rfl
  case classRef => exact pool.settled_utf8 nameIndex shortage h
  all_goals cases h

end Pool

/-! ## Taking bytes piece by piece -/

namespace Decoder

variable {α β : Type}

/-- The decoder ends at once, or it takes some bytes and goes on with what they are. -/
inductive Stepwise : Decoder α → Prop
  | pure (a : α) : Stepwise (pure a)
  | fault {fault : Fault} (h : ∀ shortage, fault ≠ .truncated shortage) : Stepwise (throw fault)
  | take (n : Nat) (next : Bytes → Decoder α) (h : ∀ bytes, Stepwise (next bytes)) :
    Stepwise (Decoder.take n >>= next)

namespace Stepwise

theorem bind {p : Decoder α} {f : α → Decoder β} (hp : Stepwise p) (hf : ∀ a, Stepwise (f a)) :
    Stepwise (p >>= f) := by
  induction hp with
  | pure a =>
    rw [pure_bind]
    exact hf a
  | fault h => exact .fault h
  | take n _ _ ih =>
    rw [bind_assoc]
    exact .take n _ ih

theorem ofExcept {e : Except Fault α} (h : Settled e) : Stepwise (ofExcept e) := by
  cases e with
  | ok a => exact .pure a
  | error fault => exact .fault fun shortage hfault => h shortage (hfault ▸ rfl)

/-- A read that makes something of the bytes it takes. -/
theorem mapTake (n : Nat) (f : Bytes → α) : Stepwise (f <$> Decoder.take n) := by
  rw [map_eq_pure_bind]
  exact .take n _ fun bytes => .pure (f bytes)

theorem skip (n : Nat) : Stepwise (skip n) := skip_eq_map_take n ▸ mapTake n _

theorem u8 : Stepwise u8 := u8_eq_map_take ▸ mapTake 1 _

theorem u16 : Stepwise u16 := u16_eq_map_take ▸ mapTake 2 _

theorem u32 : Stepwise u32 := u32_eq_map_take ▸ mapTake 4 _

theorem takeAll (n : Nat) : Stepwise (Decoder.take n) := by
  rw [← bind_pure (Decoder.take n)]
  exact .take n _ .pure

theorem discard {p : Decoder α} (h : Stepwise p) : Stepwise (discard p : Decoder Unit) := by
  have hdiscard : (Functor.discard p : Decoder Unit) = p >>= fun _ => Pure.pure () := by
    rw [Functor.discard, map_const]
    exact map_eq_pure_bind _ p
  rw [hdiscard]
  exact h.bind fun _ => .pure ()

theorem runTimes {p : Decoder α} (h : Stepwise p) (n : Nat) : Stepwise (runTimes p n) := by
  induction n with
  | zero => exact .pure []
  | succ n ih => exact h.bind fun a => ih.bind fun as => .pure (a :: as)

end Stepwise

/-! ## The decoders of a class file -/

theorem stepwise_entry (index : Nat) : Stepwise (Entry.decoder index) := by
  refine Stepwise.u8.bind fun byte => ?_
  split
  · exact .fault nofun
  · exact Stepwise.u16.bind fun n => (Stepwise.takeAll _).bind fun text => .pure _
  · exact Stepwise.u16.bind fun nameIndex => .pure _
  · exact (Stepwise.takeAll _).bind fun payload => .pure _

theorem stepwise_entries (count next : Nat) : Stepwise (Entry.decoderFrom count next) := by
  fun_induction Entry.decoderFrom count next with
  | case1 next _ ih =>
    exact (stepwise_entry next).bind fun entry => (ih entry).bind fun entries =>
      .pure (entry :: entries)
  | case2 => exact .pure []

theorem stepwise_pool : Stepwise Pool.decoder :=
  Stepwise.u16.bind fun count => (stepwise_entries count.toNat 1).bind fun entries =>
    .pure (Pool.ofEntries count.toNat entries)

theorem stepwise_version : Stepwise Decoder.version := by
  have hrest : Stepwise (do
      let minor ← u16
      let major ← u16
      if newestMajor < major then throw (.unsupportedVersion ⟨major, minor⟩)
      return ⟨major, minor⟩ : Decoder Version) := by
    refine Stepwise.u16.bind fun minor => Stepwise.u16.bind fun major => ?_
    split
    · exact (Stepwise.fault (by simp)).bind fun _ => .pure _
    · exact .pure _
  refine Stepwise.u32.bind fun found => ?_
  split
  · exact hrest
  · exact (Stepwise.fault (by simp)).bind fun _ => hrest

section
variable (pool : Pool)

theorem stepwise_skipAttribute : Stepwise (skipAttribute pool) :=
  Stepwise.u16.bind fun index => (Stepwise.ofExcept (pool.settled_expectUtf8 index)).bind fun _ =>
    Stepwise.u32.bind fun length => .skip length.toNat

theorem stepwise_skipAttributes : Stepwise (skipAttributes pool) :=
  Stepwise.u16.bind fun count => ((stepwise_skipAttribute pool).runTimes count.toNat).discard

theorem stepwise_member : Stepwise (member pool) :=
  Stepwise.u16.bind fun _ =>
    Stepwise.u16.bind fun nameIndex => (Stepwise.ofExcept (pool.settled_utf8 nameIndex)).bind fun _ =>
    Stepwise.u16.bind fun descriptorIndex =>
      (Stepwise.ofExcept (pool.settled_utf8 descriptorIndex)).bind fun _ =>
    (stepwise_skipAttributes pool).bind fun _ => .pure _

theorem stepwise_members : Stepwise (members pool) :=
  Stepwise.u16.bind fun count => (stepwise_member pool).runTimes count.toNat

theorem stepwise_declaration : Stepwise (declaration pool) :=
  Stepwise.u16.bind fun _ =>
    Stepwise.u16.bind fun index => (Stepwise.ofExcept (pool.settled_className index)).bind fun _ =>
    Stepwise.u16.bind fun _ => Stepwise.u16.bind fun interfaces =>
    (Stepwise.skip (2 * interfaces.toNat)).bind fun _ => .pure _

end

theorem stepwise_descriptor : Stepwise Decoder.descriptor :=
  stepwise_version.bind fun _ => stepwise_pool.bind fun pool =>
    (stepwise_declaration pool).bind fun _ => (stepwise_members pool).bind fun _ =>
    (stepwise_members pool).bind fun _ => (stepwise_skipAttributes pool).bind fun _ =>
    .pure _

/-! ## What a result rests on -/

/-- What the decoder gives or why it fails, without where it stopped. -/
def result (p : Decoder α) (c : Cursor) : Except Fault α :=
  match p c with
  | .ok a _ => .ok a
  | .error fault _ => .error fault

theorem result_take_append (next : Bytes → Decoder α) (position : Nat) (front rest : Bytes) :
    (Decoder.take front.length >>= next).result ⟨position, front ++ rest⟩ =
      (next front).result ⟨position + front.length, rest⟩ := by
  have htake : Decoder.take front.length ⟨position, front ++ rest⟩ =
      .ok front ⟨position + front.length, rest⟩ :=
    take_eq_ok_iff.mpr ⟨rfl, rfl, rfl⟩
  simp only [result, Bind.bind, EStateM.bind, htake]

theorem result_take_short (next : Bytes → Decoder α) (position : Nat) {n : Nat} {bytes : Bytes}
    (h : bytes.length < n) :
    (Decoder.take n >>= next).result ⟨position, bytes⟩ =
      .error (.truncated ⟨position, n, bytes.length⟩) := by
  have htake : Decoder.take n ⟨position, bytes⟩ =
      .error (.truncated ⟨position, n, bytes.length⟩) ⟨position, bytes⟩ := by
    rw [Decoder.take, Decoder.ofRead, Cursor.take_of_lt h]
    rfl
  simp only [result, Bind.bind, EStateM.bind, htake]

namespace Stepwise

variable {p : Decoder α}

/-- A settled result is that of all bytes that begin with what was taken, and less than that is too
short. -/
theorem exists_front (h : Stepwise p) (position : Nat) (bytes : Bytes)
    (hsettled : Settled (p.result ⟨position, bytes⟩)) :
    ∃ front rest, bytes = front ++ rest ∧
      (∀ rest', p.result ⟨position, front ++ rest'⟩ = p.result ⟨position, bytes⟩) ∧
      ∀ k < front.length, ∃ shortage,
        p.result ⟨position, front.take k⟩ = .error (.truncated shortage) := by
  induction h generalizing position bytes with
  | pure a => exact ⟨[], bytes, rfl, fun _ => rfl, nofun⟩
  | fault _ => exact ⟨[], bytes, rfl, fun _ => rfl, nofun⟩
  | take n next _ ih =>
    by_cases hn : n ≤ bytes.length
    · obtain ⟨taken, left, rfl, rfl⟩ : ∃ taken left, bytes = taken ++ left ∧ taken.length = n :=
        ⟨bytes.take n, bytes.drop n, (List.take_append_drop n bytes).symm, List.length_take_of_le hn⟩
      rw [result_take_append] at hsettled
      obtain ⟨front, rest, rfl, hsame, hshort⟩ := ih taken _ left hsettled
      refine ⟨taken ++ front, rest, (List.append_assoc ..).symm, fun rest' => ?_, fun k hk => ?_⟩
      · rw [List.append_assoc, result_take_append, result_take_append, hsame]
      · by_cases hk' : k < taken.length
        · refine ⟨_, result_take_short next position ?_⟩
          rw [List.length_take]
          omega
        · obtain ⟨j, rfl⟩ := Nat.exists_eq_add_of_le (Nat.not_lt.mp hk')
          rw [List.length_append] at hk
          obtain ⟨shortage, hshortage⟩ := hshort j (Nat.lt_of_add_lt_add_left hk)
          refine ⟨shortage, ?_⟩
          rw [List.take_length_add_append, result_take_append, hshortage]
    · rw [result_take_short next position (Nat.not_le.mp hn)] at hsettled
      exact absurd rfl (hsettled _)

/-- A shortage tells where the bytes end and how many are lacking, and lasts until there are as
many. -/
theorem shortage_append (h : Stepwise p) (position : Nat) (bytes : Bytes) {shortage : Shortage}
    (hshort : p.result ⟨position, bytes⟩ = .error (.truncated shortage)) :
    shortage.offset + shortage.available = position + bytes.length ∧
      shortage.available < shortage.needed ∧
      ∀ more : Bytes, more.length < shortage.needed - shortage.available →
        p.result ⟨position, bytes ++ more⟩ =
          .error (.truncated { shortage with available := shortage.available + more.length }) := by
  induction h generalizing position bytes with
  | pure a => cases hshort
  | fault hfault =>
    cases hshort
    exact absurd rfl (hfault _)
  | take n next _ ih =>
    by_cases hn : n ≤ bytes.length
    · obtain ⟨taken, left, rfl, rfl⟩ : ∃ taken left, bytes = taken ++ left ∧ taken.length = n :=
        ⟨bytes.take n, bytes.drop n, (List.take_append_drop n bytes).symm, List.length_take_of_le hn⟩
      rw [result_take_append] at hshort
      obtain ⟨hoffset, hlack, hlasts⟩ := ih taken _ left hshort
      refine ⟨?_, hlack, fun more hmore => ?_⟩
      · rw [hoffset, List.length_append, Nat.add_assoc]
      · rw [List.append_assoc, result_take_append, hlasts more hmore]
    · rw [result_take_short next position (Nat.not_le.mp hn)] at hshort
      cases hshort
      refine ⟨rfl, Nat.not_le.mp hn, fun more hmore => ?_⟩
      have hlength : (bytes ++ more).length < n := by
        rw [List.length_append]
        dsimp only at hmore
        omega
      rw [result_take_short next position hlength, List.length_append]

end Stepwise

end Decoder

theorem Descriptor.ofBytes_eq_result (bytes : Bytes) :
    ofBytes bytes = Decoder.descriptor.result ⟨0, bytes⟩ := by
  rw [ofBytes, Decoder.result, Cursor.ofBytes]
  cases Decoder.descriptor ⟨0, bytes⟩ <;> rfl

theorem Descriptor.ofBytes_prefix_stable (bytes : Bytes) :
    (Settled (ofBytes bytes) → ∃ n ≤ bytes.length,
      (∀ rest, ofBytes (bytes.take n ++ rest) = ofBytes bytes) ∧
        ∀ k < n, ∃ shortage, ofBytes (bytes.take k) = .error (.truncated shortage)) ∧
    ∀ offset needed available,
      ofBytes bytes = .error (.truncated ⟨offset, needed, available⟩) →
        offset + available = bytes.length ∧ available < needed ∧
          ∀ more : Bytes, more.length < needed - available →
            ofBytes (bytes ++ more) =
              .error (.truncated ⟨offset, needed, available + more.length⟩) := by
  simp only [ofBytes_eq_result]
  constructor
  · intro hsettled
    obtain ⟨front, rest, rfl, hsame, hshort⟩ := stepwise_descriptor.exists_front 0 bytes hsettled
    refine ⟨front.length, by simp, fun rest' => ?_, fun k hk => ?_⟩
    · rw [List.take_left]
      exact hsame rest'
    · rw [List.take_append_of_le_length (Nat.le_of_lt hk)]
      exact hshort k hk
  · intro offset needed available hshort
    obtain ⟨hoffset, hlack, hlasts⟩ := stepwise_descriptor.shortage_append 0 bytes hshort
    exact ⟨hoffset.trans (Nat.zero_add _), hlack, hlasts⟩

/-- The text in the pool ends four bytes too early. -/
def cutText : Bytes := [0xCA, 0xFE, 0xBA, 0xBE, 0, 0, 0, 52, 0, 2, 1, 0, 5, 65]

/-- A class without members, and two bytes behind it. -/
def bareClass : Bytes :=
  [0xCA, 0xFE, 0xBA, 0xBE, 0, 0, 0, 52, 0, 3, 1, 0, 1, 65, 7, 0, 1, 0, 33, 0, 2, 0, 0, 0, 0, 0, 0, 0, 0,
    0, 0, 65, 65]

theorem ofBytes_cutText_append :
    (Descriptor.ofBytes cutText = .error (.truncated ⟨13, 5, 1⟩) ∧
      ∀ more : Bytes, more.length < 4 →
        Descriptor.ofBytes (cutText ++ more) = .error (.truncated ⟨13, 5, 1 + more.length⟩)) ∧
    Settled (Descriptor.ofBytes bareClass) ∧
      ∃ n ≤ 33, (∀ rest, Descriptor.ofBytes (bareClass.take n ++ rest) =
          .ok ⟨"A", ⟨52, 0⟩, [], []⟩) ∧
        ∀ k < n, ∃ shortage, Descriptor.ofBytes (bareClass.take k) = .error (.truncated shortage) := by
  have hcut : Descriptor.ofBytes cutText = .error (.truncated ⟨13, 5, 1⟩) := by
    decide +kernel
  have hbare : Descriptor.ofBytes bareClass = .ok ⟨"A", ⟨52, 0⟩, [], []⟩ := by
    decide +kernel
  have hsettled : Settled (Descriptor.ofBytes bareClass) := hbare ▸ nofun
  obtain ⟨-, -, hlasts⟩ := (Descriptor.ofBytes_prefix_stable cutText).2 _ _ _ hcut
  obtain ⟨n, hn, hsame, hshort⟩ := (Descriptor.ofBytes_prefix_stable bareClass).1 hsettled
  exact ⟨⟨hcut, hlasts⟩, hsettled, n, hn, fun rest => (hsame rest).trans hbare, hshort⟩

end JvmSymbols.ClassFile
