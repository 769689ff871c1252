import JvmSymbols.Archive.Basic
import JvmSymbols.Proofs.Digits
import Mathlib.Data.List.Infix

/-!
# Declared sizes

The size of an entry is a number of four bytes in its directory header or, if these hold all ones, a
number of eight bytes in an extra field (`exists_declares`). Nothing is asked of that number. The
memory for the content is requested by it, which ends the run if there is not so much
(`read_eq_abort_iff`).
-/

namespace JvmSymbols

namespace Bytes

theorem littleEndian_lt (bytes : Bytes) : littleEndian bytes < 256 ^ bytes.length := by
  induction bytes with
  | nil => decide
  | cons b bytes ih =>
    have hb := b.toNat_lt
    have hcons : littleEndian (b :: bytes) = b.toNat + 256 * littleEndian bytes := rfl
    rw [hcons, List.length_cons, Nat.pow_succ]
    omega

/-- The `n` bytes from `offset` on. -/
def slice (bytes : Bytes) (offset n : Nat) : Bytes := (bytes.drop offset).take n

/-- The number in the `width` bytes from `offset` on. -/
def numberAt (bytes : Bytes) (offset width : Nat) : Nat := littleEndian (slice bytes offset width)

theorem numberAt_lt (bytes : Bytes) (offset width : Nat) :
    bytes.numberAt offset width < 256 ^ width :=
  (littleEndian_lt _).trans_le
    (Nat.pow_le_pow_right (by decide) (List.length_take_le width (bytes.drop offset)))

end Bytes

namespace Archive

/-! ## Readers -/

namespace Reader

variable {α β : Type} {bytes : Bytes} {offset : Nat} {c c' : Cursor}

/-- The cursor before what stands at `offset`. -/
def cursorAt (bytes : Bytes) (offset : Nat) : Cursor := ⟨offset, bytes.drop offset⟩

theorem run_bind_eq_ok {x : Reader α} {f : α → Reader β} {b : β}
    (h : (x >>= f).run c = .ok (b, c')) :
    ∃ a c₁, x.run c = .ok (a, c₁) ∧ (f a).run c₁ = .ok (b, c') := by
  rw [StateT.run_bind] at h
  rcases hx : x.run c with fault | ⟨a, c₁⟩ <;> rw [hx] at h
  · cases h
  · exact ⟨a, c₁, rfl, h⟩

theorem run_take_eq_ok {n : Nat} {taken : Bytes}
    (h : (take n).run (cursorAt bytes offset) = .ok (taken, c')) :
    taken = bytes.slice offset n ∧ c' = cursorAt bytes (offset + n) := by
  by_cases hn : n ≤ (bytes.drop offset).length
  · have htake : (take n).run (cursorAt bytes offset) =
        .ok (bytes.slice offset n, ⟨offset + n, (bytes.drop offset).drop n⟩) := by
      simp only [take, StateT.run_bind, StateT.run_get, cursorAt, pure_bind]
      rw [Cursor.take_of_le hn]
      rfl
    rw [htake, List.drop_drop] at h
    cases h
    exact ⟨rfl, rfl⟩
  · have htake : (take n).run (cursorAt bytes offset) = .error .cutOff := by
      simp only [take, StateT.run_bind, StateT.run_get, cursorAt, pure_bind]
      rw [Cursor.take_of_lt (Nat.lt_of_not_le hn)]
      rfl
    rw [htake] at h
    cases h

/-- Behind bytes that were taken the reader goes on with them. -/
theorem run_take_bind {n : Nat} {f : Bytes → Reader β} {b : β}
    (h : (take n >>= f).run (cursorAt bytes offset) = .ok (b, c')) :
    (f (bytes.slice offset n)).run (cursorAt bytes (offset + n)) = .ok (b, c') := by
  obtain ⟨taken, c₁, htake, h⟩ := run_bind_eq_ok h
  obtain ⟨rfl, rfl⟩ := run_take_eq_ok htake
  exact h

theorem run_number_bind {width : Nat} {f : Nat → Reader β} {b : β}
    (h : (number width >>= f).run (cursorAt bytes offset) = .ok (b, c')) :
    (f (bytes.numberAt offset width)).run (cursorAt bytes (offset + width)) = .ok (b, c') := by
  rw [number, bind_assoc] at h
  exact run_take_bind h

theorem run_liftM_eq_ok {x : Except Fault α} {a : α}
    (h : (liftM x : Reader α).run c = .ok (a, c')) : x = .ok a ∧ c = c' := by
  cases x with
  | error fault => cases h
  | ok b =>
    cases h
    exact ⟨rfl, rfl⟩

end Reader

/-! ## Extra fields -/

namespace Extra

/-- The size is that of the header, or eight bytes of the extra fields give it in place of one that
holds all ones. What is left to read are the last ones of the extra fields. -/
structure Sized (header : Entry) (extra : Bytes) (s : State) : Prop where
  rest : s.rest <:+ extra
  size : s.entry.size = header.size ∨ header.size = widened ∧
    ∃ digits, digits <:+: extra ∧ digits.length = 8 ∧ s.entry.size = Bytes.littleEndian digits

/-- The state that a reader leaves, whatever came of it. -/
def left {α : Type} : EStateM.Result Stop State α → State
  | .ok _ s | .error _ s => s

/-- Whatever comes of the reader, `I` holds of the state it leaves if it held before. -/
def Preserves {α : Type} (I : State → Prop) (x : Reader α) : Prop :=
  ∀ s, I s → I (left (x.run s))

section
variable {α β : Type} {I : State → Prop}

theorem preserves_pure (a : α) : Preserves I (pure a) := fun _ hs => hs

theorem preserves_throw (stop : Stop) : Preserves I (throw stop : Reader α) := fun _ hs => hs

theorem preserves_get : Preserves I (get : Reader State) := fun _ hs => hs

theorem preserves_modify {f : State → State} (h : ∀ s, I s → I (f s)) :
    Preserves I (modify f : Reader PUnit) := fun s hs => h s hs

theorem run_bind (x : Reader α) (f : α → Reader β) (s : State) :
    (x >>= f).run s = match x.run s with
      | .ok a s' => (f a).run s'
      | .error stop s' => .error stop s' := by
  change EStateM.bind x f s = _
  unfold EStateM.bind EStateM.run
  rcases x s with ⟨a, s'⟩ | ⟨stop, s'⟩ <;> rfl

theorem Preserves.bind {x : Reader α} {f : α → Reader β} (hx : Preserves I x)
    (hf : ∀ a, Preserves I (f a)) : Preserves I (x >>= f) := by
  intro s hs
  have hs' := hx s hs
  rw [run_bind]
  rcases hrun : x.run s with ⟨a, s'⟩ | ⟨stop, s'⟩ <;> rw [hrun] at hs'
  · exact hf a s' hs'
  · exact hs'

theorem Preserves.ite {p : Prop} [Decidable p] {x y : Reader α} (hx : Preserves I x)
    (hy : Preserves I y) : Preserves I (if p then x else y) := by
  split
  · exact hx
  · exact hy

end

theorem run_number (width : Nat) (s : State) :
    (number width).run s =
      if hasAtLeast width s.rest then
        .ok (Bytes.littleEndian (s.rest.take width)) { s with rest := s.rest.drop width }
      else .error .cutOff s := by
  have hrun : (number width).run s = (if hasAtLeast width s.rest then do
        set { s with rest := s.rest.drop width }
        return Bytes.littleEndian (s.rest.take width)
      else throw .cutOff : Reader Nat).run s := rfl
  rw [hrun]
  split <;> rfl

theorem run_widen (field : Entry → Nat) (put : Entry → Nat → Entry) (s : State) :
    (widen field put).run s =
      if field s.entry = widened then
        if hasAtLeast 8 s.rest then
          .ok 8 ⟨put s.entry (Bytes.littleEndian (s.rest.take 8)), s.rest.drop 8⟩
        else .error .cutOff s
      else .ok 0 s := by
  have hrun : (widen field put).run s = (if field s.entry = widened then do
        let value ← number 8
        modify fun s => { s with entry := put s.entry value }
        return 8
      else return 0 : Reader Nat).run s := rfl
  rw [hrun]
  split
  · rw [run_bind, run_number]
    by_cases hlength : hasAtLeast 8 s.rest = true
    · rw [if_pos hlength, if_pos hlength]
      rfl
    · rw [if_neg hlength, if_neg hlength]
  · rfl

variable {header : Entry} {extra : Bytes}

theorem Sized.drop {s : State} (h : Sized header extra s) (n : Nat) :
    Sized header extra { s with rest := s.rest.drop n } :=
  ⟨(List.drop_suffix n s.rest).trans h.rest, h.size⟩

theorem preserves_number (width : Nat) : Preserves (Sized header extra) (number width) := by
  intro s hs
  rw [run_number]
  split
  · exact hs.drop width
  · exact hs

theorem preserves_skip (n : Nat) : Preserves (Sized header extra) (skip n) :=
  preserves_modify fun _ hs => hs.drop n

theorem preserves_require (condition : Bool) (fault : Fault) :
    Preserves (Sized header extra) (require condition fault) :=
  .ite (preserves_pure ()) (preserves_throw _)

/-- A number in the place of another field leaves the size as it is. -/
theorem preserves_widen_other {field : Entry → Nat} {put : Entry → Nat → Entry}
    (hput : ∀ e n, (put e n).size = e.size) :
    Preserves (Sized header extra) (widen field put) := by
  intro s hs
  rw [run_widen]
  split
  · split
    · exact ⟨(hs.drop 8).rest, (hput _ _).symm ▸ hs.size⟩
    · exact hs
  · exact hs

theorem preserves_widen_size :
    Preserves (Sized header extra) (widen Entry.size fun e n => { e with size := n }) := by
  intro s hs
  rw [run_widen]
  split
  · rename_i hwidened
    split
    · rename_i hlength
      -- a size that was widened before can hold all ones again, and then is widened once more
      have hheader : header.size = widened := by
        rcases hs.size with hsize | ⟨hsize, -⟩
        · exact hsize.symm.trans hwidened
        · exact hsize
      refine ⟨(hs.drop 8).rest, .inr ⟨hheader, s.rest.take 8, ?_, ?_, rfl⟩⟩
      · exact (List.take_prefix 8 s.rest).isInfix.trans hs.rest.isInfix
      · exact List.length_take_of_le (hasAtLeast_iff.mp hlength)
    · exact hs
  · exact hs

theorem preserves_zip64 (length : Nat) : Preserves (Sized header extra) (zip64 length) := by
  refine preserves_widen_size.bind fun a => ?_
  refine (preserves_widen_other ?_).bind fun b => (preserves_widen_other ?_).bind fun c => ?_
  · exact fun _ _ => rfl
  · exact fun _ _ => rfl
  · exact preserves_skip _

theorem preserves_aes (length : Nat) : Preserves (Sized header extra) (aes length) :=
  (preserves_require _ _).bind fun _ => (preserves_number 2).bind fun _ =>
    (preserves_number 2).bind fun _ => (preserves_number 1).bind fun _ =>
      (preserves_number 2).bind fun _ => (preserves_require _ _).bind fun _ =>
        (preserves_require _ _).bind fun _ => (preserves_require _ _).bind fun _ =>
          (preserves_modify fun _ hs => ⟨hs.rest, hs.size⟩).bind fun _ => preserves_skip length

theorem preserves_fields (steps : Nat) : Preserves (Sized header extra) (fields steps) := by
  induction steps with
  | zero => exact preserves_pure ()
  | succ steps ih =>
    refine preserves_get.bind fun s => .ite (preserves_pure ()) ?_
    refine (preserves_number 2).bind fun kind => (preserves_number 2).bind fun length => ?_
    exact .ite ((preserves_zip64 length).bind fun _ => ih)
      (.ite ((preserves_aes length).bind fun _ => ih) ((preserves_skip length).bind fun _ => ih))

theorem sized_of_apply {entry : Entry} (h : apply header extra = .ok entry) :
    entry.size = header.size ∨ header.size = widened ∧
      ∃ digits, digits <:+: extra ∧ digits.length = 8 ∧ entry.size = Bytes.littleEndian digits := by
  have hstart : Sized header extra ⟨header, extra⟩ := ⟨List.suffix_rfl, .inl rfl⟩
  have hfields := preserves_fields extra.length ⟨header, extra⟩ hstart
  rw [apply] at h
  rcases hrun : (fields extra.length).run ⟨header, extra⟩ with ⟨_, s⟩ | ⟨_ | fault, s⟩ <;>
    rw [hrun] at h hfields <;> cases h <;> exact hfields.size

end Extra

/-! ## Directory headers -/

/-- The bytes of the extra fields of the directory header at `offset`. -/
def extraAt (bytes : Bytes) (offset : Nat) : Bytes :=
  bytes.slice (offset + 46 + bytes.numberAt (offset + 28) 2) (bytes.numberAt (offset + 30) 2)

/-- The directory header at `offset` declares the size: it is the number in the header or, if that
holds all ones, a number in the extra fields. -/
structure Declares (bytes : Bytes) (offset size : Nat) : Prop where
  signature : bytes.numberAt offset 4 = Entry.signature
  size : size = bytes.numberAt (offset + 24) 4 ∨ bytes.numberAt (offset + 24) 4 = widened ∧
    ∃ digits, digits <:+: extraAt bytes offset ∧ digits.length = 8 ∧
      size = Bytes.littleEndian digits

open Reader

theorem moved_size {entry moved : Entry} {shift : Nat} (h : entry.moved shift = .ok moved) :
    moved.size = entry.size := by
  rw [Entry.moved] at h
  split at h <;> cases h
  rfl

theorem declares_of_reader {bytes : Bytes} {offset shift : Nat} {entry : Entry} {c' : Cursor}
    (h : (Entry.reader shift).run (cursorAt bytes offset) = .ok (entry, c')) :
    Declares bytes offset entry.size ∧ ∃ offset', c' = cursorAt bytes offset' := by
  replace h := run_number_bind h
  split at h
  case isFalse =>
    obtain ⟨_, _, hthrow, -⟩ := run_bind_eq_ok h
    cases hthrow
  rename_i hsignature
  -- versions, flags, method, time and checksum
  replace h := run_take_bind h
  replace h := run_number_bind h
  replace h := run_number_bind h
  replace h := run_take_bind h
  replace h := run_number_bind h
  -- both sizes and the three lengths
  replace h := run_number_bind h
  replace h := run_number_bind h
  replace h := run_number_bind h
  replace h := run_number_bind h
  replace h := run_number_bind h
  -- disk and attributes, the place of the entry, and what has the three lengths
  replace h := run_take_bind h
  replace h := run_number_bind h
  replace h := run_take_bind h
  replace h := run_take_bind h
  replace h := run_take_bind h
  obtain ⟨widenedEntry, _, hextras, h⟩ := run_bind_eq_ok h
  obtain ⟨happly, rfl⟩ := run_liftM_eq_ok hextras
  split at h
  case isTrue =>
    obtain ⟨_, _, hthrow, -⟩ := run_bind_eq_ok h
    cases hthrow
  obtain ⟨hmoved, rfl⟩ := run_liftM_eq_ok h
  rw [moved_size hmoved]
  exact ⟨⟨hsignature, Extra.sized_of_apply happly⟩, _, rfl⟩

/-- Without extra fields no size is beyond 32 bits. -/
theorem Declares.size_cases {bytes : Bytes} {offset size : Nat} (h : Declares bytes offset size) :
    size < widened ∨ bytes.numberAt (offset + 24) 4 = widened ∧ size < 2 ^ 64 := by
  have hfield : bytes.numberAt (offset + 24) 4 < 2 ^ 32 := Bytes.numberAt_lt bytes (offset + 24) 4
  rcases h.size with hsize | ⟨hwidened, digits, -, hlength, hsize⟩
  · rw [widened]
    omega
  · have hdigits := Bytes.littleEndian_lt digits
    rw [hlength, ← hsize] at hdigits
    exact .inr ⟨hwidened, hdigits⟩

/-- What is said of a reader that goes from place to place is said of all that it gives. -/
theorem forall_of_runTimes {α : Type} {bytes : Bytes} {reader : Reader α} {P : α → Prop}
    (hreader : ∀ offset a c', reader.run (cursorAt bytes offset) = .ok (a, c') →
      P a ∧ ∃ offset', c' = cursorAt bytes offset') (n : Nat) {offset : Nat} {list : List α}
    {c' : Cursor} (h : (runTimes reader n).run (cursorAt bytes offset) = .ok (list, c')) :
    ∀ a ∈ list, P a := by
  induction n generalizing offset list c' with
  | zero =>
    cases h
    exact nofun
  | succ n ih =>
    obtain ⟨a, c₁, hfirst, h⟩ := run_bind_eq_ok h
    obtain ⟨ha, offset', rfl⟩ := hreader offset a c₁ hfirst
    obtain ⟨rest, c₂, hrest, h⟩ := run_bind_eq_ok h
    cases h
    exact List.forall_mem_cons.mpr ⟨ha, ih hrest⟩

theorem exists_of_bind_eq_ok {α β : Type} {x : Except Fault α} {f : α → Except Fault β} {b : β}
    (h : (x >>= f) = .ok b) : ∃ a, x = .ok a ∧ f a = .ok b := by
  cases x with
  | error fault => cases h
  | ok a => exact ⟨a, rfl, h⟩

theorem exists_run_of_entriesOf {bytes : Bytes} {entries : List Entry}
    (h : entriesOf bytes = .ok entries) : ∃ shift n offset c',
      (runTimes (Entry.reader shift) n).run (cursorAt bytes offset) = .ok (entries, c') := by
  rw [entriesOf] at h
  split at h
  case isFalse =>
    obtain ⟨_, hthrow, -⟩ := exists_of_bind_eq_ok h
    cases hthrow
  generalize EndRecord.find? bytes = found at h
  rcases found with _ | position
  · cases h
  obtain ⟨record, -, h⟩ := exists_of_bind_eq_ok h
  split at h
  case isFalse =>
    obtain ⟨_, hthrow, -⟩ := exists_of_bind_eq_ok h
    cases hthrow
  obtain ⟨shift, -, h⟩ := exists_of_bind_eq_ok h
  obtain ⟨⟨_, c'⟩, hrun, h⟩ := exists_of_bind_eq_ok h
  cases h
  exact ⟨shift, _, _, c', hrun⟩

/-- Each entry of an archive is of the size that some directory header declares. -/
theorem exists_declares {bytes : Bytes} {archive : Archive} (h : ofBytes bytes = .ok archive) :
    ∀ entry ∈ archive.entries, ∃ offset, Declares bytes offset entry.size := by
  rw [ofBytes] at h
  rcases hentries : entriesOf bytes with fault | entries <;> rw [hentries] at h <;> cases h
  obtain ⟨shift, n, offset, c', hrun⟩ := exists_run_of_entriesOf hentries
  refine forall_of_runTimes (fun offset entry c' hentry => ?_) n hrun
  obtain ⟨hdeclares, hnext⟩ := declares_of_reader hentry
  exact ⟨⟨offset, hdeclares⟩, hnext⟩

/-! ## Requests for memory -/

theorem mem_entries_of_openEntry {archive : Archive} {name : String} {entry : Entry} {start : Nat}
    (h : archive.openEntry name = .ok (entry, start)) : entry ∈ archive.entries := by
  rw [openEntry] at h
  rcases hfind : archive.find? name with _ | found <;> rw [hfind] at h
  · cases h
  have hmem : found ∈ archive.entries := by
    rw [find?] at hfind
    exact List.mem_reverse.mp (List.mem_of_find?_eq_some hfind)
  dsimp only at h
  split at h
  · obtain ⟨_, hthrow, -⟩ := exists_of_bind_eq_ok h
    cases hthrow
  obtain ⟨_, -, h⟩ := exists_of_bind_eq_ok h
  split at h
  · cases h
    exact hmem
  · obtain ⟨_, hthrow, -⟩ := exists_of_bind_eq_ok h
    cases hthrow

/-- How a request for the memory of the entry ends the run, if it does. -/
def Entry.abort? (entry : Entry) : Option Abort :=
  if entry.aes then some .unexpectedEncryption
  else if 2 ^ 63 ≤ entry.size then some .capacityOverflow
  else if memory ≤ entry.size then some .outOfMemory
  else none

theorem read_of_openEntry {archive : Archive} {name : String} {entry : Entry} {start : Nat}
    (h : archive.openEntry name = .ok (entry, start)) :
    archive.read name = match entry.abort? with
      | some abort => .error (.abort abort)
      | none => (archive.unpack entry start).mapError .unreadable := by
  have hlargest : largestBuffer < entry.size ↔ 2 ^ 63 ≤ entry.size := by
    have hvalue : largestBuffer = 2 ^ 63 - 1 := by decide
    omega
  have hread : archive.read name = if entry.aes then .error (.abort .unexpectedEncryption)
      else if largestBuffer < entry.size then .error (.abort .capacityOverflow)
      else if memory ≤ entry.size then .error (.abort .outOfMemory)
      else (archive.unpack entry start).mapError .unreadable := by
    rw [read, h]
    change (if entry.aes then _ else _) = _
    split
    · rfl
    split
    · rfl
    split <;> rfl
  rw [hread, Entry.abort?, if_congr hlargest rfl rfl]
  split
  · rfl
  split
  · rfl
  split <;> rfl

/-- A read ends the run if the entry opens and asks for too much, and then only. -/
theorem read_eq_abort_iff {archive : Archive} {name : String} {abort : Abort} :
    archive.read name = .error (.abort abort) ↔ ∃ entry ∈ archive.entries, ∃ start,
      archive.openEntry name = .ok (entry, start) ∧ entry.abort? = some abort := by
  rcases hopen : archive.openEntry name with fault | ⟨entry, start⟩
  · have hread : archive.read name = .error (.unopenable fault) := by
      rw [read, hopen]
      rfl
    rw [hread]
    exact ⟨nofun, nofun⟩
  have hread : archive.read name = .error (.abort abort) ↔ entry.abort? = some abort := by
    rw [read_of_openEntry hopen]
    rcases entry.abort? with _ | abort'
    · rcases archive.unpack entry start with fault | content <;> exact ⟨nofun, nofun⟩
    · simp
  rw [hread]
  constructor
  · intro habort
    exact ⟨entry, mem_entries_of_openEntry hopen, start, rfl, habort⟩
  · rintro ⟨_, -, _, ⟨⟩, habort⟩
    exact habort

end Archive

end JvmSymbols
