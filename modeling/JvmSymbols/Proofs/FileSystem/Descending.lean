import JvmSymbols.Proofs.FileSystem.PathNames
import JvmSymbols.Proofs.Selection.Spelling
import JvmSymbols.Proofs.Text.Utf8Inverse
import JvmSymbols.Selection.RelativeKey
import Mathlib.Algebra.Ring.Nat
import Mathlib.Data.List.Induction
import Mathlib.Data.Option.Basic

/-!
# The key of a path below a root

A path that goes down from a root by clean names has just these names behind the components of the
root (`components_descend`), so that they are its key (`relativeKey_descend`), however the root is
written.
-/

namespace JvmSymbols

namespace Path

/-! ## Parts -/

theorem split_of_notMem {name : Name} (h : slash ∉ name) : split name = [name] :=
  (congrArg split (by simp [unsplit])).trans
    (split_unsplit (List.forall_mem_singleton.mpr h) (List.cons_ne_nil _ _))

theorem split_replicate (count : Nat) :
    split (List.replicate count slash) = List.replicate (count + 1) [] := by
  induction count with
  | zero => rfl
  | succ count ih =>
    rw [List.replicate_succ, split_slash_cons, ih]
    rfl

/-- Slashes behind a name add empty parts. -/
theorem split_append_replicate {name : Name} (h : slash ∉ name) (count : Nat) :
    split (name ++ List.replicate count slash) = name :: List.replicate count [] := by
  cases count with
  | zero => rw [List.replicate_zero, List.append_nil, split_of_notMem h, List.replicate_zero]
  | succ count =>
    rw [List.replicate_succ, split_append_slash, split_of_notMem h, split_replicate,
      List.singleton_append]

/-! ## Components -/

theorem components_eq (p : Path) :
    p.components = p.leadComponents ++ (namesOf (split p.bytes)).map Component.ofPart := by
  rw [components, (names_of_lead p).1]
  rfl

variable {p q : Path} {name : Name}

theorem leadComponents_congr (habsolute : q.isAbsolute = p.isAbsolute)
    (hhead : (split q.bytes).head? = (split p.bytes).head?) :
    q.leadComponents = p.leadComponents := by
  rw [leadComponents, leadComponents, lead, lead, habsolute, hhead]

/-- What a name that is no number of slashes or dots adds to a path. -/
structure IsProper (name : Name) : Prop where
  not_isIdle : isIdle name = false
  ne_dotDot : name ≠ dotDot
  slash : slash ∉ name

instance (name : Name) : Decidable (IsProper name) :=
  decidable_of_iff (isIdle name = false ∧ name ≠ dotDot ∧ slash ∉ name)
    ⟨fun ⟨hidle, hdots, hslash⟩ => ⟨hidle, hdots, hslash⟩,
      fun ⟨hidle, hdots, hslash⟩ => ⟨hidle, hdots, hslash⟩⟩

theorem IsProper.ne_nil (h : IsProper name) : name ≠ [] := by
  rintro rfl
  exact absurd h.not_isIdle (by decide)

theorem isAbsolute_of_slash_notMem (h : slash ∉ name) : (⟨name⟩ : Path).isAbsolute = false := by
  rw [isAbsolute, beq_eq_false_iff_ne]
  exact fun hhead => h (List.mem_of_mem_head? hhead)

/-- A name is put behind a path with a slash between them. -/
theorem bytes_join (hp : p.bytes ≠ []) (h : IsProper name) :
    (p.join ⟨name⟩).bytes = p.bytes ++ name ∨
      (p.join ⟨name⟩).bytes = p.bytes ++ slash :: name := by
  have hempty : p.bytes.isEmpty = false := List.isEmpty_eq_false_iff.mpr hp
  rw [join, isAbsolute_of_slash_notMem h.slash, hempty, Bool.or_self, if_neg Bool.false_ne_true]
  split
  · exact .inl rfl
  · exact .inr rfl

theorem exists_bytes_join (hp : p.bytes ≠ []) (h : IsProper name) :
    ∃ suffix, (∀ b ∈ suffix, b = slash ∨ b ∈ name) ∧
      (p.join ⟨name⟩).bytes = p.bytes ++ suffix := by
  rcases bytes_join hp h with hbytes | hbytes
  · exact ⟨name, fun b hb => .inr hb, hbytes⟩
  · exact ⟨slash :: name, fun b hb => List.mem_cons.mp hb, hbytes⟩

theorem join_ne_nil (hp : p.bytes ≠ []) (h : IsProper name) : (p.join ⟨name⟩).bytes ≠ [] := by
  obtain ⟨suffix, -, hbytes⟩ := exists_bytes_join hp h
  exact hbytes ▸ List.append_ne_nil_of_left_ne_nil hp suffix

theorem isAbsolute_join (hp : p.bytes ≠ []) (h : IsProper name) :
    (p.join ⟨name⟩).isAbsolute = p.isAbsolute := by
  obtain ⟨suffix, -, hbytes⟩ := exists_bytes_join hp h
  rw [isAbsolute, isAbsolute, hbytes, List.head?_append_of_ne_nil _ hp]

/-- A name is put behind the parts of a path, in place of an empty one at the end. -/
theorem exists_split_join (hp : p.bytes ≠ []) (h : IsProper name) :
    ∃ front, front ≠ [] ∧ namesOf (split p.bytes) = namesOf front ∧
      (split p.bytes).head? = front.head? ∧ split (p.join ⟨name⟩).bytes = front ++ [name] := by
  have hempty : p.bytes.isEmpty = false := List.isEmpty_eq_false_iff.mpr hp
  have hname := split_of_notMem h.slash
  rw [join, isAbsolute_of_slash_notMem h.slash, hempty, Bool.or_self, if_neg Bool.false_ne_true]
  by_cases hlast : p.bytes.getLast? = some slash
  · obtain ⟨a, ha⟩ := List.getLast?_eq_some_iff.mp hlast
    have hsplit : split p.bytes = split a ++ [[]] := by
      rw [ha, split_append_slash]
      rfl
    have hne : split a ≠ [] := List.splitOn_ne_nil slash a
    rw [if_pos (by simp [hlast])]
    refine ⟨split a, hne, ?_, ?_, ?_⟩
    · rw [hsplit, namesOf_append]
      exact List.append_nil _
    · rw [hsplit, List.head?_append_of_ne_nil _ hne]
    · rw [ha, List.append_assoc, List.singleton_append, split_append_slash, hname]
  · rw [if_neg (by simpa using hlast)]
    refine ⟨split p.bytes, List.splitOn_ne_nil slash _, rfl, rfl, ?_⟩
    rw [split_append_slash, hname]

theorem split_join (hp : p.bytes ≠ []) (hlast : p.bytes.getLast? ≠ some slash) (h : IsProper name) :
    split (p.join ⟨name⟩).bytes = split p.bytes ++ [name] := by
  have hempty : p.bytes.isEmpty = false := List.isEmpty_eq_false_iff.mpr hp
  rw [join, isAbsolute_of_slash_notMem h.slash, hempty, Bool.or_self, if_neg Bool.false_ne_true,
    if_neg (by simpa using hlast), split_append_slash, split_of_notMem h.slash]

theorem components_join (hp : p.bytes ≠ []) (h : IsProper name) :
    (p.join ⟨name⟩).components = p.components ++ [.normal name] := by
  obtain ⟨front, hfront, hnames, hhead, hjoin⟩ := exists_split_join hp h
  have hlead := leadComponents_congr (isAbsolute_join hp h)
    (by rw [hjoin, hhead, List.head?_append_of_ne_nil _ hfront])
  rw [components_eq, components_eq, hlead, hjoin, namesOf_append, hnames,
    namesOf_cons h.not_isIdle, List.map_append, List.append_assoc]
  simp [namesOf, Component.ofPart, h.ne_dotDot]

/-- Descending puts something behind a path. -/
theorem exists_bytes_descend (hp : p.bytes ≠ []) {names : List Name}
    (hnames : ∀ name ∈ names, IsProper name) :
    ∃ suffix, (∀ b ∈ suffix, b = slash ∨ ∃ name ∈ names, b ∈ name) ∧
      (p.descend names).bytes = p.bytes ++ suffix := by
  induction names generalizing p with
  | nil => exact ⟨[], nofun, (List.append_nil _).symm⟩
  | cons name names ih =>
    obtain ⟨hname, hnames⟩ := List.forall_mem_cons.mp hnames
    obtain ⟨suffix, hsuffix, hbytes⟩ := exists_bytes_join hp hname
    obtain ⟨rest, hrest, hdescend⟩ := ih (join_ne_nil hp hname) hnames
    refine ⟨suffix ++ rest, fun b hb => ?_, ?_⟩
    · rcases List.mem_append.mp hb with hb | hb
      · exact (hsuffix b hb).imp_right fun hb => ⟨name, List.mem_cons_self, hb⟩
      · exact (hrest b hb).imp_right fun ⟨other, hother, hb⟩ =>
          ⟨other, List.mem_cons_of_mem _ hother, hb⟩
    · rw [← List.append_assoc, ← hbytes]
      exact hdescend

theorem isAbsolute_descend (hp : p.bytes ≠ []) {names : List Name}
    (hnames : ∀ name ∈ names, IsProper name) : (p.descend names).isAbsolute = p.isAbsolute := by
  obtain ⟨suffix, -, hbytes⟩ := exists_bytes_descend hp hnames
  rw [isAbsolute, isAbsolute, hbytes, List.head?_append_of_ne_nil _ hp]

/-- Descending puts names behind the parts of a path. -/
theorem exists_split_descend (hp : p.bytes ≠ []) {names : List Name} (hne : names ≠ [])
    (hnames : ∀ name ∈ names, IsProper name) :
    ∃ front, namesOf (split p.bytes) = namesOf front ∧
      split (p.descend names).bytes = front ++ names := by
  induction names using List.reverseRecOn with
  | nil => exact absurd rfl hne
  | append_singleton names last ih =>
    obtain ⟨hnames, hlast⟩ := List.forall_mem_append.mp hnames
    replace hlast := hlast last List.mem_cons_self
    have hdescend : p.descend (names ++ [last]) = (p.descend names).join ⟨last⟩ :=
      List.foldl_concat ..
    rcases List.eq_nil_or_concat names with rfl | ⟨front', name, rfl⟩
    · obtain ⟨front, -, hfront, -, hjoin⟩ := exists_split_join hp hlast
      exact ⟨front, hfront, hjoin⟩
    · rw [List.concat_eq_append] at ih hnames hdescend ⊢
      obtain ⟨front, hfront, hsplit⟩ := ih (by simp) hnames
      obtain ⟨suffix, -, hbytes⟩ := exists_bytes_descend hp hnames
      have hbelow : (p.descend (front' ++ [name])).bytes ≠ [] :=
        hbytes ▸ List.append_ne_nil_of_left_ne_nil hp suffix
      have hproper := hnames name (by simp)
      have hend : split (p.descend (front' ++ [name])).bytes = (front ++ front') ++ [name] := by
        rw [hsplit, List.append_assoc]
      refine ⟨front, hfront, ?_⟩
      rw [hdescend, split_join hbelow (getLast?_of_split hend hproper.ne_nil) hlast, hsplit,
        List.append_assoc]

/-- Descending adds the names, and at most one slash for each. -/
theorem length_descend (hp : p.bytes ≠ []) {names : List Name}
    (hnames : ∀ name ∈ names, IsProper name) :
    p.bytes.length + (names.map List.length).sum ≤ (p.descend names).bytes.length ∧
      (p.descend names).bytes.length ≤
        p.bytes.length + (names.map List.length).sum + names.length := by
  induction names generalizing p with
  | nil => exact ⟨le_rfl, le_rfl⟩
  | cons name names ih =>
    obtain ⟨hname, hnames⟩ := List.forall_mem_cons.mp hnames
    have hlength : (p.join ⟨name⟩).bytes.length = p.bytes.length + name.length ∨
        (p.join ⟨name⟩).bytes.length = p.bytes.length + (name.length + 1) := by
      rcases bytes_join hp hname with h | h
      · exact .inl (h ▸ List.length_append)
      · exact .inr (h ▸ List.length_append)
    have hdescend : p.descend (name :: names) = (p.join ⟨name⟩).descend names := rfl
    obtain ⟨hlow, hhigh⟩ := ih (join_ne_nil hp hname) hnames
    rw [hdescend, List.map_cons, List.sum_cons, List.length_cons]
    omega

theorem components_descend (hp : p.bytes ≠ []) {names : List Name}
    (hnames : ∀ name ∈ names, IsProper name) :
    (p.descend names).components = p.components ++ names.map .normal := by
  induction names generalizing p with
  | nil => exact (List.append_nil _).symm
  | cons name names ih =>
    obtain ⟨hname, hnames⟩ := List.forall_mem_cons.mp hnames
    rw [List.map_cons, List.append_cons, ← components_join hp hname]
    exact ih (join_ne_nil hp hname) hnames

end Path

theorem IsClean.isProper {name : String} (h : IsClean name) : Path.IsProper (Utf8.encode name) where
  not_isIdle := by
    have hempty : Utf8.encode name ≠ Utf8.encode "" := Utf8.encode_injective.ne h.ne_empty
    have hdot : Utf8.encode name ≠ Utf8.encode "." := Utf8.encode_injective.ne h.ne_dot
    exact Bool.or_eq_false_iff.mpr
      ⟨List.isEmpty_eq_false_iff.mpr hempty, beq_eq_false_iff_ne.mpr hdot⟩
  ne_dotDot := Utf8.encode_injective.ne h.ne_dotDot
  slash := List.count_eq_zero.mp
    ((Utf8.count_encode (d := '/') (by decide) name).trans (List.count_eq_zero.mpr h.slash))

theorem Utf8.map_decodeLossy_encode (texts : List String) :
    (texts.map encode).map decodeLossy = texts := by
  rw [List.map_map]
  exact (List.map_congr_left fun text _ => decodeLossy_encode text).trans (List.map_id' texts)

/-- The names behind the components of a root are the key, with U+FFFD for what is no text in
them. -/
theorem relativeKey_of_components {root path : Path} {names : List Name}
    (hpath : path.components = root.components ++ names.map .normal) (hne : names ≠ []) :
    relativeKey root path = some (keyOf (names.map Utf8.decodeLossy)) := by
  have hbelow : root.below? path = some (names.map .normal) := by
    rw [Path.below?, hpath]
    exact List.isPrefixOf?_eq_some_iff_append_eq.mpr rfl
  have htexts : (names.map Path.Component.normal).filterMap Path.Component.text? =
      names.map Utf8.decodeLossy := by
    rw [List.filterMap_map, ← List.filterMap_eq_map]
    rfl
  rw [relativeKey, hbelow, Option.bind_eq_bind, Option.bind_some, htexts]
  simp [hne, keyOf]

/-- The names that lead from a root are the key. -/
theorem relativeKey_descend_names {root : Path} (hroot : root.bytes ≠ []) {names : List Name}
    (hnames : ∀ name ∈ names, Path.IsProper name) (hne : names ≠ []) :
    relativeKey root (root.descend names) = some (keyOf (names.map Utf8.decodeLossy)) :=
  relativeKey_of_components (Path.components_descend hroot hnames) hne

/-- The names that lead to a file from a root are its key. -/
theorem relativeKey_descend {root : Path} (hroot : root.bytes ≠ []) {names : List String}
    (hclean : ∀ name ∈ names, IsClean name) (hne : names ≠ []) :
    relativeKey root (root.descend (names.map Utf8.encode)) = some (keyOf names) := by
  have hproper : ∀ name ∈ names.map Utf8.encode, Path.IsProper name :=
    List.forall_mem_map.mpr fun name hname => (hclean name hname).isProper
  rw [relativeKey_descend_names hroot hproper (by simpa using hne), Utf8.map_decodeLossy_encode]

end JvmSymbols
