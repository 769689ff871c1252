import JvmSymbols.Proofs.ClassFile.PoolSlots

/-!
# Reading is the inverse of writing

`Descriptor.ofBytes` accepts exactly the encodings of well-formed contents, with any bytes behind
them, and gives what the contents declare. Each construct of the grammar has its lemma for the
decoder that reads it.
-/

namespace JvmSymbols.ClassFile

open Decoder

variable {c c' : Cursor} {count : Nat} {entries : List Entry}

/-! ## Attributes and members -/

theorem declaresAll_iff_forall₂ {ms : List MemberInfo} {ds : List Member} :
    DeclaresAll entries ms ds ↔ List.Forall₂ (MemberInfo.Declares entries) ms ds := by
  induction ms generalizing ds with
  | nil => cases ds <;> simp [DeclaresAll]
  | cons m ms ih => cases ds <;> simp [DeclaresAll, ih]

section
variable (hfill : Fills count entries)
include hfill

theorem decodes_skipAttribute :
    Decodes (skipAttribute (.ofEntries count entries)) AttributeInfo.encode
      fun a _ => a.WellFormed entries := by
  intro c u c'
  simp only [skipAttribute, bind_eq_ok_iff, u16_eq_ok_iff, u32_eq_ok_iff, skip_eq_ok_iff,
    ofExcept_eq_ok_iff, Pool.expectUtf8_eq_ok_iff hfill, AttributeInfo.encode, List.append_assoc,
    Cursor.passes_append]
  constructor
  · rintro ⟨nameIndex, c₁, hname, _, _, ⟨htext, rfl⟩, n, c₂, hn, body, hlen, hbody⟩
    have hlt : body.length < 2 ^ 32 := hlen ▸ n.toNat_lt
    exact ⟨⟨nameIndex, body⟩, ⟨htext, hlt⟩, c₁, hname, c₂, by rwa [hlen], hbody⟩
  · rintro ⟨⟨nameIndex, body⟩, ⟨htext, hlt⟩, c₁, hname, c₂, hn, hbody⟩
    have htoNat : (UInt32.ofNat body.length).toNat = body.length := UInt32.toNat_ofNat_of_lt' hlt
    exact ⟨nameIndex, c₁, hname, (), c₁, ⟨htext, rfl⟩, .ofNat body.length, c₂, by rwa [htoNat],
      body, htoNat.symm, hbody⟩

theorem skipAttributes_eq_ok_iff {u : Unit} :
    skipAttributes (.ofEntries count entries) c = .ok u c' ↔
      ∃ as, AttributesWellFormed entries as ∧
        c.Passes (encodeTable AttributeInfo.encode as) c' := by
  have hgoals (as : List AttributeInfo) :
      (∃ us : List Unit, List.Forall₂ (fun a _ => a.WellFormed entries) as us) ↔
        ∀ a ∈ as, a.WellFormed entries := by
    induction as with
    | nil => simp
    | cons a as ih => simp [List.forall₂_cons_left_iff, ← ih]
  have htable {us : List Unit} : (do
        let n ← u16
        runTimes (skipAttribute (.ofEntries count entries)) n.toNat : Decoder (List Unit)) c =
      .ok us c' ↔ _ := (decodes_skipAttribute hfill).table
  simp only [bind_eq_ok_iff] at htable
  simp only [skipAttributes, bind_eq_ok_iff, discard_eq_ok_iff, AttributesWellFormed]
  constructor
  · rintro ⟨n, c₁, hn, us, hus⟩
    obtain ⟨as, hlen, hall, hpass⟩ := htable.mp ⟨n, c₁, hn, hus⟩
    exact ⟨as, ⟨hlen, (hgoals as).mp ⟨us, hall⟩⟩, hpass⟩
  · rintro ⟨as, ⟨hlen, hall⟩, hpass⟩
    obtain ⟨us, hall⟩ := (hgoals as).mpr hall
    obtain ⟨n, c₁, hn, hus⟩ := htable.mpr ⟨as, hlen, hall, hpass⟩
    exact ⟨n, c₁, hn, us, hus⟩

theorem decodes_member :
    Decodes (member (.ofEntries count entries)) MemberInfo.encode
      fun m d => m.WellFormed entries ∧ m.Declares entries d := by
  intro c d c'
  simp only [member, bind_eq_ok_iff, u16_eq_ok_iff, ofExcept_eq_ok_iff, Pool.utf8_eq_ok_iff hfill,
    skipAttributes_eq_ok_iff hfill, pure_eq_ok_iff, MemberInfo.encode, List.append_assoc,
    Cursor.passes_append]
  constructor
  · rintro ⟨access, c₁, haccess, nameIndex, c₂, hname, _, _, ⟨⟨name, hnameAt, rfl⟩, rfl⟩,
      descriptorIndex, c₃, hdescriptor, _, _, ⟨⟨descriptor, hdescriptorAt, rfl⟩, rfl⟩, _, _,
      ⟨attributes, hattributes, hpass⟩, rfl, rfl⟩
    exact ⟨⟨access, nameIndex, descriptorIndex, attributes⟩,
      ⟨⟨⟨name, hnameAt⟩, ⟨descriptor, hdescriptorAt⟩, hattributes⟩,
        name, descriptor, hnameAt, hdescriptorAt, rfl⟩,
      c₁, haccess, c₂, hname, c₃, hdescriptor, hpass⟩
  · rintro ⟨m, ⟨hwf, name, descriptor, hnameAt, hdescriptorAt, rfl⟩, c₁, haccess, c₂, hname, c₃,
      hdescriptor, hpass⟩
    exact ⟨m.access, c₁, haccess, m.nameIndex, c₂, hname, _, c₂, ⟨⟨name, hnameAt, rfl⟩, rfl⟩,
      m.descriptorIndex, c₃, hdescriptor, _, c₃, ⟨⟨descriptor, hdescriptorAt, rfl⟩, rfl⟩, (), c',
      ⟨m.attributes, hwf.2.2, hpass⟩, rfl, rfl⟩

theorem members_eq_ok_iff {ds : List Member} :
    members (.ofEntries count entries) c = .ok ds c' ↔
      ∃ ms, ms.length < 2 ^ 16 ∧ (∀ m ∈ ms, m.WellFormed entries) ∧ DeclaresAll entries ms ds ∧
        c.Passes (encodeTable MemberInfo.encode ms) c' := by
  rw [members, (decodes_member hfill).table]
  simp only [List.forall₂_and_left, declaresAll_iff_forall₂, and_assoc]

end

/-! ## The header and the class -/

theorem version_eq_ok_iff {v : Version} :
    Decoder.version c = .ok v c' ↔ v.major ≤ newestMajor ∧
      c.Passes (Bytes.ofNat 4 magic.toNat ++ (encode16 v.minor ++ encode16 v.major)) c' := by
  simp only [Decoder.version, bind_eq_ok_iff, u32_eq_ok_iff, Cursor.passes_append]
  constructor
  · rintro ⟨found, c₁, hfound, h⟩
    by_cases hmagic : found = magic
    · rw [if_pos hmagic] at h
      simp only [bind_eq_ok_iff, u16_eq_ok_iff] at h
      obtain ⟨minor, c₂, hminor, major, c₃, hmajor, h⟩ := h
      by_cases hnew : newestMajor < major
      · simp only [if_pos hnew, bind_eq_ok_iff, throw_eq_ok_iff, false_and, exists_false] at h
      · rw [if_neg hnew, pure_eq_ok_iff] at h
        obtain ⟨rfl, rfl⟩ := h
        exact ⟨UInt16.not_lt.mp hnew, c₁, hmagic ▸ hfound, c₂, hminor, hmajor⟩
    · simp only [if_neg hmagic, bind_eq_ok_iff, throw_eq_ok_iff, false_and, exists_false] at h
  · rintro ⟨hle, c₁, hfound, c₂, hminor, hmajor⟩
    refine ⟨magic, c₁, hfound, ?_⟩
    simp only [if_true, bind_eq_ok_iff, u16_eq_ok_iff]
    refine ⟨v.minor, c₂, hminor, v.major, c', hmajor, ?_⟩
    rw [if_neg (UInt16.not_lt.mpr hle), pure_eq_ok_iff]
    exact ⟨rfl, rfl⟩

/-- As many bytes as indices take are indices. -/
theorem exists_indices {n : Nat} {bytes : Bytes} :
    bytes.length = 2 * n ↔ ∃ is : List UInt16, is.length = n ∧ bytes = is.flatMap encode16 := by
  constructor
  · intro h
    induction n generalizing bytes with
    | zero => exact ⟨[], rfl, List.eq_nil_of_length_eq_zero h⟩
    | succ n ih =>
      obtain ⟨a, b, bytes, rfl⟩ : ∃ a b rest, bytes = a :: b :: rest := by
        rcases bytes with _ | ⟨a, _ | ⟨b, rest⟩⟩
        · exact nomatch h
        · rw [List.length_singleton] at h
          omega
        · exact ⟨a, b, rest, rfl⟩
      have hlen : bytes.length = 2 * n := by
        simp only [List.length_cons] at h
        omega
      obtain ⟨is, rfl, rfl⟩ := ih hlen
      have hlt : Bytes.bigEndian [a, b] < 2 ^ 16 := by simpa using Bytes.bigEndian_lt [a, b]
      have hword : encode16 (.ofNat (Bytes.bigEndian [a, b])) = [a, b] := by
        rw [encode16, UInt16.toNat_ofNat_of_lt' hlt]
        exact Bytes.ofNat_bigEndian [a, b]
      exact ⟨.ofNat (Bytes.bigEndian [a, b]) :: is, rfl, by rw [List.flatMap_cons, hword]; rfl⟩
  · rintro ⟨is, rfl, rfl⟩
    induction is with
    | nil => rfl
    | cons i is ih => simp [encode16, Bytes.length_ofNat, ih]; omega

theorem declaration_eq_ok_iff (hfill : Fills count entries) {name : String} :
    declaration (.ofEntries count entries) c = .ok name c' ↔
      ∃ (access thisClass superClass : UInt16) (interfaces : List UInt16),
        interfaces.length < 2 ^ 16 ∧
        (∃ text, ClassNameAt entries thisClass text ∧
          name = String.ofList (ModifiedUtf8.decode text)) ∧
        c.Passes (encode16 access ++ (encode16 thisClass ++ (encode16 superClass ++
          encodeTable encode16 interfaces))) c' := by
  simp only [declaration, bind_eq_ok_iff, u16_eq_ok_iff, ofExcept_eq_ok_iff, skip_eq_ok_iff,
    Pool.className_eq_ok_iff hfill, pure_eq_ok_iff, exists_indices, encodeTable,
    Cursor.passes_append]
  constructor
  · rintro ⟨access, c₁, haccess, thisClass, c₂, hthis, _, _, ⟨htext, rfl⟩, superClass, c₃, hsuper,
      n, c₄, hn, _, _, ⟨_, ⟨interfaces, hlen, rfl⟩, hpass⟩, rfl, rfl⟩
    have hlt : interfaces.length < 2 ^ 16 := hlen ▸ n.toNat_lt
    exact ⟨access, thisClass, superClass, interfaces, hlt, htext, c₁, haccess, c₂, hthis, c₃, hsuper,
      c₄, by rwa [hlen], hpass⟩
  · rintro ⟨access, thisClass, superClass, interfaces, hlt, htext, c₁, haccess, c₂, hthis, c₃, hsuper,
      c₄, hn, hpass⟩
    have htoNat : (UInt16.ofNat interfaces.length).toNat = interfaces.length :=
      UInt16.toNat_ofNat_of_lt' hlt
    exact ⟨access, c₁, haccess, thisClass, c₂, hthis, name, c₂, ⟨htext, rfl⟩, superClass, c₃, hsuper,
      .ofNat interfaces.length, c₄, by rwa [encode16, htoNat], (), c',
      ⟨_, ⟨interfaces, htoNat.symm, rfl⟩, hpass⟩, rfl, rfl⟩

/-! ## The class file -/

theorem descriptor_eq_ok_iff {d : Descriptor} :
    Decoder.descriptor c = .ok d c' ↔
      ∃ contents : Contents, contents.WellFormed ∧ contents.Declares d ∧
        c.Passes contents.encode c' := by
  simp only [Decoder.descriptor, bind_eq_ok_iff, version_eq_ok_iff, Pool.decoder_eq_ok_iff,
    pure_eq_ok_iff]
  constructor
  · rintro ⟨v, c₁, ⟨hle, hversion⟩, _, c₂, ⟨n, entries, hentries, hfill, rfl, hpool⟩, name, c₃, hname,
      fields, c₄, hfields, methods, c₅, hmethods, u, c₆, hattributes, rfl, rfl⟩
    obtain ⟨access, thisClass, superClass, interfaces, hinterfaces, ⟨text, hthis, rfl⟩, hpass⟩ :=
      (declaration_eq_ok_iff hfill).mp hname
    obtain ⟨fs, hfsLen, hfs, hfsDeclare, hfsPass⟩ := (members_eq_ok_iff hfill).mp hfields
    obtain ⟨ms, hmsLen, hms, hmsDeclare, hmsPass⟩ := (members_eq_ok_iff hfill).mp hmethods
    obtain ⟨as, has, hasPass⟩ := (skipAttributes_eq_ok_iff hfill).mp hattributes
    refine ⟨⟨v, n, entries, access, thisClass, superClass, interfaces, fs, ms, as⟩,
      ⟨hle, hentries, hfill, ⟨text, hthis⟩, hinterfaces, hfsLen, hfs, hmsLen, hms, has⟩,
      ⟨rfl, ⟨text, hthis, rfl⟩, hmsDeclare, hfsDeclare⟩, ?_⟩
    simp only [Cursor.passes_append] at hversion hpool hpass
    obtain ⟨p₁, hmagic, p₂, hminor, hmajor⟩ := hversion
    obtain ⟨p₃, hn, hpool⟩ := hpool
    obtain ⟨p₄, haccess, p₅, hthisClass, p₆, hsuper, hinterfacesPass⟩ := hpass
    simp only [Contents.encode, List.append_assoc, Cursor.passes_append]
    exact ⟨p₁, hmagic, p₂, hminor, c₁, hmajor, p₃, hn, c₂, hpool, p₄, haccess, p₅, hthisClass, p₆,
      hsuper, c₃, hinterfacesPass, c₄, hfsPass, c₅, hmsPass, hasPass⟩
  · rintro ⟨contents, hwf, hdeclares, hpass⟩
    simp only [Contents.encode, List.append_assoc, Cursor.passes_append] at hpass
    obtain ⟨p₁, hmagic, p₂, hminor, c₁, hmajor, p₃, hn, c₂, hpool, p₄, haccess, p₅, hthisClass, p₆,
      hsuper, c₃, hinterfacesPass, c₄, hfsPass, c₅, hmsPass, hasPass⟩ := hpass
    have hfill := hwf.fills
    refine ⟨contents.version, c₁, ⟨hwf.version, ?_⟩, _, c₂, ⟨contents.count, contents.entries,
      hwf.entries, hfill, rfl, ?_⟩, d.internalName, c₃, ?_, d.fields, c₄, ?_, d.methods, c₅, ?_, (),
      c', ?_, ?_, rfl⟩
    · simp only [Cursor.passes_append]
      exact ⟨p₁, hmagic, p₂, hminor, hmajor⟩
    · exact Cursor.passes_append.mpr ⟨p₃, hn, hpool⟩
    · refine (declaration_eq_ok_iff hfill).mpr ⟨contents.access, contents.thisClass,
        contents.superClass, contents.interfaces, hwf.interfaces, hdeclares.internalName, ?_⟩
      simp only [Cursor.passes_append]
      exact ⟨p₄, haccess, p₅, hthisClass, p₆, hsuper, hinterfacesPass⟩
    · exact (members_eq_ok_iff hfill).mpr
        ⟨contents.fields, hwf.fieldCount, hwf.fields, hdeclares.fields, hfsPass⟩
    · exact (members_eq_ok_iff hfill).mpr
        ⟨contents.methods, hwf.methodCount, hwf.methods, hdeclares.methods, hmsPass⟩
    · exact (skipAttributes_eq_ok_iff hfill).mpr ⟨contents.attributes, hwf.attributes, hasPass⟩
    · rw [← hdeclares.version]

theorem Descriptor.ofBytes_eq_ok_iff {bytes : Bytes} {d : Descriptor} :
    ofBytes bytes = .ok d ↔ ∃ contents : Contents, contents.WellFormed ∧ contents.Declares d ∧
      ∃ rest, bytes = contents.encode ++ rest := by
  have hrun : ofBytes bytes = .ok d ↔
      ∃ c', Decoder.descriptor (Cursor.ofBytes bytes) = .ok d c' := by
    unfold ofBytes
    cases Decoder.descriptor (Cursor.ofBytes bytes) with
    | ok d' c' => simp
    | error fault c' => simp
  simp only [hrun, descriptor_eq_ok_iff]
  constructor
  · rintro ⟨c', contents, hwf, hdeclares, hpass⟩
    exact ⟨contents, hwf, hdeclares, c'.rest, hpass.1⟩
  · rintro ⟨contents, hwf, hdeclares, rest, hrest⟩
    exact ⟨⟨0 + contents.encode.length, rest⟩, contents, hwf, hdeclares, hrest, rfl⟩

/-! ## What contents declare -/

theorem MemberInfo.WellFormed.exists_declares {m : MemberInfo} (h : m.WellFormed entries) :
    ∃ d, m.Declares entries d := by
  obtain ⟨⟨name, hname⟩, ⟨descriptor, hdescriptor⟩, -⟩ := h
  exact ⟨_, name, descriptor, hname, hdescriptor, rfl⟩

theorem exists_declaresAll {ms : List MemberInfo} (h : ∀ m ∈ ms, m.WellFormed entries) :
    ∃ ds, DeclaresAll entries ms ds := by
  induction ms with
  | nil => exact ⟨[], trivial⟩
  | cons m ms ih =>
    obtain ⟨hm, hms⟩ := List.forall_mem_cons.mp h
    obtain ⟨d, hd⟩ := hm.exists_declares
    obtain ⟨ds, hds⟩ := ih hms
    exact ⟨d :: ds, hd, hds⟩

namespace Contents

theorem WellFormed.exists_declares {contents : Contents} (h : contents.WellFormed) :
    ∃ d, contents.Declares d := by
  obtain ⟨text, htext⟩ := h.thisClass
  obtain ⟨methods, hmethods⟩ := exists_declaresAll h.methods
  obtain ⟨fields, hfields⟩ := exists_declaresAll h.fields
  exact ⟨⟨_, contents.version, methods, fields⟩, rfl, ⟨text, htext, rfl⟩, hmethods, hfields⟩

/-- Contents that declare two things would be read in two ways. -/
theorem WellFormed.declares_unique {contents : Contents} (h : contents.WellFormed)
    {d d' : Descriptor} (hd : contents.Declares d) (hd' : contents.Declares d') : d = d' := by
  have hread {d : Descriptor} (hd : contents.Declares d) :
      Descriptor.ofBytes contents.encode = .ok d :=
    Descriptor.ofBytes_eq_ok_iff.mpr ⟨contents, h, hd, [], (List.append_nil _).symm⟩
  exact Except.ok.inj ((hread hd).symm.trans (hread hd'))

end Contents

/-- Reading accepts exactly the encodings of well-formed contents, whatever stands behind them, and
gives what the contents declare; well-formed contents declare one thing. -/
theorem Descriptor.ofBytes_eq_ok_iff_encode :
    (∀ (bytes : Bytes) (d : Descriptor), ofBytes bytes = .ok d ↔
      ∃ (contents : Contents) (rest : Bytes), contents.WellFormed ∧
        bytes = contents.encode ++ rest ∧ contents.Declares d) ∧
      ∀ contents : Contents, contents.WellFormed → ∃! d, contents.Declares d := by
  refine ⟨fun bytes d => ofBytes_eq_ok_iff.trans ?_, fun contents h => ?_⟩
  · constructor
    · rintro ⟨contents, hwf, hdeclares, rest, heq⟩
      exact ⟨contents, rest, hwf, heq, hdeclares⟩
    · rintro ⟨contents, rest, hwf, heq, hdeclares⟩
      exact ⟨contents, hwf, hdeclares, rest, heq⟩
  · obtain ⟨d, hd⟩ := h.exists_declares
    exact ⟨d, hd, fun d' hd' => h.declares_unique hd' hd⟩

/-- A class with one method. Its name stands behind the reference to it, and the number in the last
slot of its pool takes one slot more than there is. -/
def oneMethod : Contents where
  version := ⟨52, 0⟩
  count := 6
  entries :=
    [.classRef 2, .utf8 [65], .utf8 [40, 41, 86], .utf8 [109], .other .double (.replicate 8 0)]
  access := 0x21
  thisClass := 1
  superClass := 0
  interfaces := [9]
  fields := []
  methods := [⟨1, 4, 3, [⟨2, [7, 7]⟩]⟩]
  attributes := [⟨4, []⟩]

theorem oneMethod_textAt : TextAt oneMethod.entries 2 [65] ∧
    TextAt oneMethod.entries 3 [40, 41, 86] ∧ TextAt oneMethod.entries 4 [109] :=
  ⟨⟨[.classRef 2], _, rfl, rfl⟩, ⟨[.classRef 2, .utf8 [65]], _, rfl, rfl⟩,
    ⟨[.classRef 2, .utf8 [65], .utf8 [40, 41, 86]], _, rfl, rfl⟩⟩

theorem oneMethod_wellFormed : oneMethod.WellFormed := by
  obtain ⟨hclass, hdescriptor, hmethod⟩ := oneMethod_textAt
  have hname : ClassNameAt oneMethod.entries 1 [65] := ⟨2, ⟨[], _, rfl, rfl⟩, hclass⟩
  refine ⟨by decide, ?_, ⟨by decide, fun front last heq => ?_⟩, ⟨_, hname⟩, by decide, by decide,
    nofun, by decide, ?_, by decide, ?_⟩
  · simp [oneMethod, Entry.WellFormed, Tag.payloadSize]
  · obtain rfl : oneMethod.entries.dropLast = front := by rw [heq, List.dropLast_concat]
    decide
  · rintro m (_ | ⟨_, ⟨⟩⟩)
    refine ⟨⟨_, hmethod⟩, ⟨_, hdescriptor⟩, by decide, ?_⟩
    rintro a (_ | ⟨_, ⟨⟩⟩)
    exact ⟨⟨_, hclass⟩, by decide⟩
  · rintro a (_ | ⟨_, ⟨⟩⟩)
    exact ⟨⟨_, hmethod⟩, by decide⟩

theorem ofBytes_oneMethod : oneMethod.WellFormed ∧ (∃! d, oneMethod.Declares d) ∧
    Descriptor.ofBytes (oneMethod.encode ++ [0xCA, 0xFE]) =
      .ok ⟨"A", ⟨52, 0⟩, [⟨"m", "()V"⟩], []⟩ := by
  have hwf := oneMethod_wellFormed
  obtain ⟨hclass, hdescriptor, hmethod⟩ := oneMethod_textAt
  refine ⟨hwf, Descriptor.ofBytes_eq_ok_iff_encode.2 oneMethod hwf,
    (Descriptor.ofBytes_eq_ok_iff_encode.1 _ _).mpr ⟨oneMethod, [0xCA, 0xFE], hwf, rfl, rfl, ?_, ?_,
      trivial⟩⟩
  · exact ⟨[65], ⟨2, ⟨[], _, rfl, rfl⟩, hclass⟩, by decide⟩
  · exact ⟨⟨[109], [40, 41, 86], hmethod, hdescriptor, by decide⟩, trivial⟩

end JvmSymbols.ClassFile
