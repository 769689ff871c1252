import JvmSymbols.Selection.EntryName
import JvmSymbols.Source.Archive
import Mathlib.Data.List.Basic

/-!
# Spellings of entry names

The same names can be stored in an archive in many ways: behind slashes and `./`, and with either
slash between them. Their normal form is the same for all (`Spells.normalize`).
-/

namespace JvmSymbols

/-- A name that stands for itself wherever it is part of a path. -/
structure IsClean (name : String) : Prop where
  ne_empty : name ≠ ""
  ne_dot : name ≠ "."
  ne_dotDot : name ≠ ".."
  slash : '/' ∉ name.toList
  backslash : '\\' ∉ name.toList
  nul : '\x00' ∉ name.toList

instance (name : String) : Decidable (IsClean name) :=
  decidable_of_iff (name ≠ "" ∧ name ≠ "." ∧ name ≠ ".." ∧ '/' ∉ name.toList ∧
      '\\' ∉ name.toList ∧ '\x00' ∉ name.toList)
    ⟨fun ⟨a, b, c, d, e, f⟩ => ⟨a, b, c, d, e, f⟩, fun ⟨a, b, c, d, e, f⟩ => ⟨a, b, c, d, e, f⟩⟩

/-- The names with slashes between them. -/
def keyOf (names : List String) : String := "/".intercalate names

namespace EntryName

/-- Either slash. -/
def IsSeparator (c : Char) : Prop := c = '/' ∨ c = '\\'

/-- What may stand in front of a name: slashes and `./`. -/
inductive Leading : List Char → Prop
  | nil : Leading []
  | slash {c : Char} {rest : List Char} : IsSeparator c → Leading rest → Leading (c :: rest)
  | dotSlash {c : Char} {rest : List Char} :
    IsSeparator c → Leading rest → Leading ('.' :: c :: rest)

/-- The names with either slash between each two. -/
inductive Joined : List String → List Char → Prop
  | last (name : String) : Joined [name] name.toList
  | cons (name : String) {c : Char} {names : List String} {text : List Char} :
    IsSeparator c → Joined names text → Joined (name :: names) (name.toList ++ c :: text)

/-- The stored name is one for the file that the names lead to. -/
def Spells (stored : String) (names : List String) : Prop :=
  ∃ leading text, Leading leading ∧ Joined names text ∧ stored.toList = leading ++ text

variable {names : List String} {name stored : String} {text leading : List Char}

/-! ## Normal forms -/

theorem forwardSlashes_append (a b : List Char) :
    forwardSlashes (a ++ b) = forwardSlashes a ++ forwardSlashes b := List.map_append

theorem forwardSlashes_separator {c : Char} (h : IsSeparator c) (rest : List Char) :
    forwardSlashes (c :: rest) = '/' :: forwardSlashes rest := by
  rcases h with rfl | rfl <;> rfl

theorem forwardSlashes_eq_self (h : '\\' ∉ text) : forwardSlashes text = text := by
  have hsame : ∀ c ∈ text, (if c = '\\' then '/' else c) = c := by
    intro c hc
    refine if_neg ?_
    rintro rfl
    exact h hc
  rw [forwardSlashes, List.map_congr_left hsame, List.map_id']

theorem toList_keyOf_cons {rest : List String} (h : rest ≠ []) :
    (keyOf (name :: rest)).toList = name.toList ++ '/' :: (keyOf rest).toList := by
  have hslash : "/".toList = ['/'] := rfl
  rw [keyOf, keyOf, String.toList_intercalate, String.toList_intercalate, List.map_cons,
    List.intercalate_cons_of_ne_nil (by simpa using h), hslash, List.append_assoc]
  rfl

theorem toList_keyOf_singleton (name : String) : (keyOf [name]).toList = name.toList := by
  rw [keyOf, String.toList_intercalate]
  exact List.append_nil _

theorem Joined.forwardSlashes_eq (h : Joined names text) (hclean : ∀ name ∈ names, IsClean name) :
    forwardSlashes text = (keyOf names).toList := by
  induction h with
  | last name =>
    have hname := hclean name List.mem_cons_self
    rw [forwardSlashes_eq_self hname.backslash, toList_keyOf_singleton]
  | @cons name c names text hc hjoined ih =>
    obtain ⟨hname, hnames⟩ := List.forall_mem_cons.mp hclean
    have hne : names ≠ [] := by cases hjoined <;> exact List.cons_ne_nil _ _
    rw [forwardSlashes_append, forwardSlashes_eq_self hname.backslash, forwardSlashes_separator hc,
      ih hnames, toList_keyOf_cons hne]

theorem stripLeading_leading (h : Leading leading) (text : List Char) :
    stripLeading (forwardSlashes (leading ++ text)) = stripLeading (forwardSlashes text) := by
  induction h with
  | nil => rfl
  | slash hc _ ih =>
    rw [List.cons_append, forwardSlashes_separator hc, stripLeading, ih]
  | @dotSlash c rest hc _ ih =>
    have hdot : forwardSlashes ('.' :: c :: (rest ++ text)) =
        '.' :: '/' :: forwardSlashes (rest ++ text) :=
      congrArg ('.' :: ·) (forwardSlashes_separator hc (rest ++ text))
    rw [List.cons_append, List.cons_append, hdot, stripLeading, ih]

theorem IsClean.exists_cons (h : IsClean name) :
    ∃ c rest, name.toList = c :: rest ∧ c ≠ '/' ∧ (c = '.' → rest ≠ []) := by
  obtain ⟨c, rest, hname⟩ := List.exists_cons_of_ne_nil
    (mt String.toList_eq_nil_iff.mp h.ne_empty)
  refine ⟨c, rest, hname, ?_, ?_⟩
  · rintro rfl
    exact h.slash (hname ▸ List.mem_cons_self)
  · rintro rfl rfl
    exact h.ne_dot (String.toList_inj.mp hname)

/-- Nothing is taken off in front of a clean name. -/
theorem stripLeading_clean (h : IsClean name) {text : List Char} :
    stripLeading (name.toList ++ text) = name.toList ++ text := by
  obtain ⟨c, rest, hname, hslash, hdot⟩ := IsClean.exists_cons h
  have hrest : '/' ∉ rest := fun hmem => h.slash (hname ▸ List.mem_cons_of_mem c hmem)
  rw [hname, List.cons_append]
  unfold stripLeading
  split
  · rename_i heq
    exact absurd (List.cons.inj heq).1 hslash
  · rename_i heq
    obtain ⟨hc, heq⟩ := List.cons.inj heq
    obtain ⟨d, rest, rfl⟩ := List.exists_cons_of_ne_nil (hdot hc)
    obtain ⟨rfl, -⟩ := List.cons.inj heq
    exact absurd List.mem_cons_self hrest
  · rfl

theorem exists_toList_keyOf (name : String) (rest : List String) :
    ∃ text, (keyOf (name :: rest)).toList = name.toList ++ text := by
  by_cases h : rest = []
  · exact ⟨[], by rw [h, toList_keyOf_singleton, List.append_nil]⟩
  · exact ⟨_, toList_keyOf_cons h⟩

theorem Joined.exists_cons (h : Joined names text) : ∃ name rest, names = name :: rest := by
  cases h <;> exact ⟨_, _, rfl⟩

/-- All spellings of the same names have one normal form. -/
theorem Spells.normalize (h : Spells stored names) (hclean : ∀ name ∈ names, IsClean name) :
    EntryName.normalize stored = keyOf names := by
  obtain ⟨leading, text, hleading, hjoined, hstored⟩ := h
  obtain ⟨name, rest, rfl⟩ := hjoined.exists_cons
  obtain ⟨back, hback⟩ := exists_toList_keyOf name rest
  rw [EntryName.normalize, normalizeChars, hstored, stripLeading_leading hleading,
    hjoined.forwardSlashes_eq hclean, hback, stripLeading_clean (hclean name List.mem_cons_self),
    ← hback, String.ofList_toList]

/-! ## Names of files -/

theorem Joined.getLast?_eq (h : Joined names text) (hclean : ∀ name ∈ names, IsClean name) :
    ∃ c, text.getLast? = some c ∧ c ≠ '/' ∧ c ≠ '\\' := by
  induction h with
  | last name =>
    have hname := hclean name List.mem_cons_self
    have hne : name.toList ≠ [] := mt String.toList_eq_nil_iff.mp hname.ne_empty
    obtain ⟨c, hc⟩ : ∃ c, name.toList.getLast? = some c := ⟨_, List.getLast?_eq_some_getLast hne⟩
    have hmem := List.mem_of_getLast? hc
    refine ⟨c, hc, ?_, ?_⟩
    · rintro rfl
      exact hname.slash hmem
    · rintro rfl
      exact hname.backslash hmem
  | cons name hc hjoined ih =>
    obtain ⟨d, hd, hd'⟩ := ih (List.forall_mem_cons.mp hclean).2
    refine ⟨d, ?_, hd'⟩
    rw [List.getLast?_append_cons, List.getLast?_cons, hd]
    rfl

/-- A spelling of the names of a file is no name of a directory. -/
theorem Spells.isDirectoryName (h : Spells stored names) (hclean : ∀ name ∈ names, IsClean name) :
    ArchiveSource.isDirectoryName stored = false := by
  obtain ⟨leading, text, -, hjoined, hstored⟩ := h
  obtain ⟨c, hc, hslash, hbackslash⟩ := hjoined.getLast?_eq hclean
  rw [ArchiveSource.isDirectoryName, hstored, List.getLast?_append, hc]
  simp [hslash, hbackslash]

end EntryName

/-! ## Keys -/

/-- A key tells the names. -/
theorem keyOf_injective {names others : List String} (hnames : ∀ name ∈ names, '/' ∉ name.toList)
    (hothers : ∀ name ∈ others, '/' ∉ name.toList) (hne : names ≠ []) (hne' : others ≠ [])
    (h : keyOf names = keyOf others) : names = others := by
  have hsplit {names : List String} (hnames : ∀ name ∈ names, '/' ∉ name.toList)
      (hne : names ≠ []) : (keyOf names).toList.splitOn '/' = names.map String.toList := by
    rw [keyOf, String.toList_intercalate]
    exact List.splitOn_intercalate '/' (List.forall_mem_map.mpr hnames) (by simpa using hne)
  refine List.map_injective_iff.mpr (fun _ _ => String.toList_inj.mp) ?_
  rw [← hsplit hnames hne, h, hsplit hothers hne']

end JvmSymbols
