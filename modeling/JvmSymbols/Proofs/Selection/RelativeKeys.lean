import JvmSymbols.Proofs.FileSystem.Descending
import Mathlib.Logic.Relation

/-!
# Keys and spellings

A path can be written in many ways: slashes can be repeated, a `.` can stand between them, and there
can be a slash at the end. None of this changes its components (`Respelled.components_eq`), so it
does not change the key of a path below a root, which tells the names that lead there
(`relativeKey_leadsTo`).
-/

namespace JvmSymbols

namespace Path

variable {p q root path : Path} {names : List String}

/-! ## Spellings -/

/-- The second path is the first one with more in it that does not count. A slash behind the empty
path would count: it makes it the root. -/
inductive Padded : Path → Path → Prop
  | slash (front back : Bytes) :
    Padded ⟨front ++ slash :: back⟩ ⟨front ++ slash :: slash :: back⟩
  | current (front back : Bytes) :
    Padded ⟨front ++ slash :: back⟩ ⟨front ++ slash :: (dot ++ slash :: back)⟩
  | atEnd {bytes : Bytes} : bytes ≠ [] → Padded ⟨bytes⟩ ⟨bytes ++ [slash]⟩

/-- The paths differ only in what does not count. -/
def Respelled : Path → Path → Prop := Relation.EqvGen Padded

theorem components_congr (habsolute : q.isAbsolute = p.isAbsolute)
    (hhead : (split q.bytes).head? = (split p.bytes).head?)
    (hnames : namesOf (split q.bytes) = namesOf (split p.bytes)) : q.components = p.components := by
  rw [components_eq, components_eq, leadComponents_congr habsolute hhead, hnames]

/-- What stands behind a slash counts by its names. -/
theorem components_behind_slash (front : Bytes) {back back' : Bytes}
    (h : namesOf (split back') = namesOf (split back)) :
    (⟨front ++ slash :: back'⟩ : Path).components =
      (⟨front ++ slash :: back⟩ : Path).components := by
  apply components_congr
  · cases front <;> rfl
  · have hfront : split front ≠ [] := List.splitOn_ne_nil slash front
    rw [split_append_slash, split_append_slash, List.head?_append_of_ne_nil _ hfront,
      List.head?_append_of_ne_nil _ hfront]
  · rw [split_append_slash, split_append_slash, namesOf_append, namesOf_append, h]

theorem Padded.components_eq (h : Padded p q) : q.components = p.components := by
  cases h with
  | slash front back =>
    apply components_behind_slash
    rw [split_slash_cons, namesOf_cons_idle rfl]
  | current front back =>
    apply components_behind_slash
    rw [split_append_slash, split_of_notMem (by decide), List.singleton_append,
      namesOf_cons_idle (by decide)]
  | @atEnd bytes hne =>
    have hsplit : split (bytes ++ [Path.slash]) = split bytes ++ [[]] := split_append_slash bytes []
    apply components_congr
    · rw [isAbsolute, isAbsolute, List.head?_append_of_ne_nil _ hne]
    · have hbytes : split bytes ≠ [] := List.splitOn_ne_nil Path.slash bytes
      rw [hsplit, List.head?_append_of_ne_nil _ hbytes]
    · rw [hsplit, namesOf_append]
      exact List.append_nil _

theorem Respelled.components_eq (h : p.Respelled q) : q.components = p.components := by
  induction h with
  | rel _ _ hpadded => exact hpadded.components_eq
  | refl _ => rfl
  | symm _ _ _ ih => exact ih.symm
  | trans _ _ _ _ _ ih ih' => exact ih'.trans ih

/-! ## Names that lead from a root -/

theorem components_name {name : Name} (h : IsProper name) :
    (⟨name⟩ : Path).components = [.normal name] := by
  have habsolute : (⟨name⟩ : Path).isAbsolute = false := isAbsolute_of_slash_notMem h.slash
  have hdot : name ≠ dot := by
    rintro rfl
    exact absurd h.not_isIdle (by decide)
  have hlead : (⟨name⟩ : Path).lead = [] := by
    simp [lead, habsolute, split_of_notMem h.slash, hdot]
  rw [components_eq, leadComponents, habsolute, hlead, split_of_notMem h.slash,
    namesOf_cons h.not_isIdle]
  simp [namesOf, Component.ofPart, h.ne_dotDot, dot]

theorem components_descend_names (root : Path) {names : List Name} (hne : names ≠ [])
    (hnames : ∀ name ∈ names, IsProper name) :
    (root.descend names).components = root.components ++ names.map .normal := by
  by_cases hroot : root.bytes = []
  -- from the empty path the first name is the whole path
  · obtain ⟨name, rest, rfl⟩ := List.exists_cons_of_ne_nil hne
    obtain ⟨hname, hrest⟩ := List.forall_mem_cons.mp hnames
    have hdescend : root.descend (name :: rest) = (⟨name⟩ : Path).descend rest := by
      rw [descend, List.foldl_cons, join, if_pos (by simp [hroot])]
      rfl
    have hempty : root.components = [] := by
      obtain ⟨_⟩ := root
      cases hroot
      rfl
    rw [hdescend, components_descend hname.ne_nil hrest, components_name hname, hempty]
    rfl
  · exact components_descend hroot hnames

/-- The path leads from the root by the names, however it is written. -/
structure LeadsTo (root : Path) (names : List String) (path : Path) : Prop where
  ne_nil : names ≠ []
  isProper : ∀ name ∈ names, IsProper (Utf8.encode name)
  spelled : (root.descend (names.map Utf8.encode)).Respelled path

end Path

open JvmSymbols.Path (LeadsTo Respelled)

theorem Path.LeadsTo.slash_notMem {root path : Path} {names : List String}
    (h : root.LeadsTo names path) : ∀ name ∈ names, '/' ∉ name.toList := by
  intro name hname
  have hcount : (Utf8.encode name).count slash = 0 :=
    List.count_eq_zero.mpr (h.isProper name hname).slash
  exact List.count_eq_zero.mp ((Utf8.count_encode (d := '/') (by decide) name).symm.trans hcount)

theorem Path.LeadsTo.relativeKey_eq {root root' path : Path} {names : List String}
    (h : root.LeadsTo names path) (hroot : root.Respelled root') :
    relativeKey root' path = some (keyOf names) := by
  have hproper : ∀ name ∈ names.map Utf8.encode, IsProper name := List.forall_mem_map.mpr h.isProper
  have hne : names.map Utf8.encode ≠ [] := mt List.map_eq_nil_iff.mp h.ne_nil
  have hcomponents : path.components =
      root'.components ++ (names.map Utf8.encode).map .normal := by
    rw [h.spelled.components_eq, components_descend_names root hne hproper, hroot.components_eq]
  rw [relativeKey_of_components hcomponents hne, Utf8.map_decodeLossy_encode]

/-- The key of a path below a root is made of the names that lead there, and no others have it. -/
theorem relativeKey_leadsTo {root root' path : Path} {names : List String}
    (h : root.LeadsTo names path) (hroot : root.Respelled root') :
    relativeKey root' path = some (keyOf names) ∧
      ∀ others other, root.LeadsTo others other →
        relativeKey root' other = relativeKey root' path → others = names := by
  refine ⟨h.relativeKey_eq hroot, fun others other hother hkey => ?_⟩
  rw [h.relativeKey_eq hroot, hother.relativeKey_eq hroot, Option.some.injEq] at hkey
  exact keyOf_injective hother.slash_notMem h.slash_notMem hother.ne_nil h.ne_nil hkey

/-- Root and path begin with a `.`, which counts, and are padded in different places. -/
theorem relativeKey_padded :
    let root : Path := .ofString "./a"
    let padded : Path := .ofString ".//a/"
    let path : Path := .ofString "./a/b\\/./é/"
    root.LeadsTo ["b\\", "é"] path ∧ root.Respelled padded ∧
      relativeKey padded path = some "b\\/é" := by
  intro root padded path
  have hslash : root.Padded (.ofString ".//a") := by
    convert Path.Padded.slash (Utf8.encode ".") (Utf8.encode "a") using 1 <;> decide
  have hcurrent : (root.descend (["b\\", "é"].map Utf8.encode)).Padded (.ofString "./a/b\\/./é") := by
    convert Path.Padded.current (Utf8.encode "./a/b\\") (Utf8.encode "é") using 1 <;> decide
  have hroot : root.Respelled padded := .trans _ _ _ (.rel _ _ hslash) (.rel _ _ (.atEnd (by decide)))
  have hspelled : (root.descend (["b\\", "é"].map Utf8.encode)).Respelled path :=
    .trans _ _ _ (.rel _ _ hcurrent) (.rel _ _ (.atEnd (by decide)))
  have hpath : root.LeadsTo ["b\\", "é"] path := ⟨by decide, by decide, hspelled⟩
  have hkey : keyOf ["b\\", "é"] = "b\\/é" := by decide
  exact ⟨hpath, hroot, hkey ▸ (relativeKey_leadsTo hpath hroot).1⟩

end JvmSymbols
