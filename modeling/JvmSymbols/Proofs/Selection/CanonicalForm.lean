import JvmSymbols.Proofs.Selection.NormalForm
import Mathlib.Data.List.Forall2

/-!
# The canonical form of a name

Slashes and `./` in front of a name are taken off in rounds (`StripsTo`). It does not matter in which
order: a text is a run of such pieces and a rest that begins with none of them, and there is one way
to cut it so (`normalize_canonical`).
-/

namespace JvmSymbols.EntryName

variable {text front rest : List Char} {pieces : List (List Char)}

/-! ## Pieces that lead a name -/

/-- A piece that leads a name without being part of it. -/
def IsMarker (piece : List Char) : Prop := piece = ['/'] ∨ piece = ['.', '/']

/-- The text is any number of markers, one behind another. -/
def IsLead (text : List Char) : Prop :=
  ∃ pieces : List (List Char), (∀ piece ∈ pieces, IsMarker piece) ∧ text = pieces.flatten

theorem IsLead.nil : IsLead [] := ⟨[], nofun, rfl⟩

theorem IsMarker.append {piece : List Char} (hpiece : IsMarker piece) (h : IsLead text) :
    IsLead (piece ++ text) := by
  obtain ⟨pieces, hpieces, rfl⟩ := h
  exact ⟨piece :: pieces, List.forall_mem_cons.mpr ⟨hpiece, hpieces⟩, rfl⟩

theorem IsMarker.stripLeading_append {piece : List Char} (h : IsMarker piece) (text : List Char) :
    stripLeading (piece ++ text) = stripLeading text := by
  rcases h with rfl | rfl <;> rfl

theorem IsLead.stripLeading_append (h : IsLead front) (text : List Char) :
    stripLeading (front ++ text) = stripLeading text := by
  obtain ⟨pieces, hpieces, rfl⟩ := h
  induction pieces with
  | nil => rfl
  | cons piece pieces ih =>
    obtain ⟨hpiece, hpieces⟩ := List.forall_mem_cons.mp hpieces
    rw [List.flatten_cons, List.append_assoc, hpiece.stripLeading_append, ih hpieces]

/-- What is taken off are markers. -/
theorem exists_lead (text : List Char) : ∃ front, IsLead front ∧ text = front ++ stripLeading text := by
  fun_induction stripLeading text with
  | case1 name ih =>
    obtain ⟨front, hfront, hname⟩ := ih
    exact ⟨'/' :: front, IsMarker.append (.inl rfl) hfront, congrArg ('/' :: ·) hname⟩
  | case2 name ih =>
    obtain ⟨front, hfront, hname⟩ := ih
    exact ⟨'.' :: '/' :: front, IsMarker.append (.inr rfl) hfront, congrArg ('.' :: '/' :: ·) hname⟩
  | case3 name => exact ⟨[], .nil, rfl⟩

/-- A text is cut in one way only into markers and a rest that begins with none. -/
theorem eq_stripLeading_iff :
    rest = stripLeading text ↔ IsBare rest ∧ ∃ front, IsLead front ∧ text = front ++ rest := by
  constructor
  · rintro rfl
    exact ⟨isBare_stripLeading text, exists_lead text⟩
  · rintro ⟨hbare, front, hfront, rfl⟩
    rw [hfront.stripLeading_append, hbare.stripLeading_eq]

/-! ## Rounds -/

/-- In each round all slashes in front are taken off, and then one `./`. A round that finds no `./`
is the last one. -/
inductive StripsTo : List Char → List Char → Prop
  | done {text : List Char} : ¬ ['.', '/'] <+: text.dropWhile (· == '/') →
    StripsTo text (text.dropWhile (· == '/'))
  | again {text next rest : List Char} : text.dropWhile (· == '/') = '.' :: '/' :: next →
    StripsTo next rest → StripsTo text rest

theorem stripLeading_dropWhile (text : List Char) :
    stripLeading (text.dropWhile (· == '/')) = stripLeading text := by
  induction text with
  | nil => rfl
  | cons c text ih =>
    by_cases hc : c = '/'
    · subst hc
      exact ih
    · rw [List.dropWhile_cons_of_neg (by simpa using hc)]

theorem slash_not_isPrefix_dropWhile (text : List Char) :
    ¬ ['/'] <+: text.dropWhile (· == '/') := by
  rintro ⟨rest, hrest⟩
  have hhead := List.head?_dropWhile_not (· == '/') text
  rw [← hrest] at hhead
  exact absurd hhead (by simp)

theorem StripsTo.eq (h : StripsTo text rest) : rest = stripLeading text := by
  induction h with
  | @done text hdot =>
    have hbare : IsBare (text.dropWhile (· == '/')) := ⟨slash_not_isPrefix_dropWhile text, hdot⟩
    rw [← stripLeading_dropWhile, hbare.stripLeading_eq]
  | @again text next rest hnext _ ih =>
    rw [← stripLeading_dropWhile, hnext]
    exact ih

/-- The rounds come to an end, since each but the last makes the text shorter. -/
theorem exists_stripsTo (text : List Char) : ∃ rest, StripsTo text rest := by
  induction hlength : text.length using Nat.strongRecOn generalizing text with
  | _ length ih =>
    by_cases hdot : ['.', '/'] <+: text.dropWhile (· == '/')
    · obtain ⟨next, hnext⟩ := hdot
      have hshorter : next.length < length := by
        have hle := (List.dropWhile_suffix (l := text) (· == '/')).length_le
        simp only [← hnext, List.length_append, List.length_cons] at hle
        omega
      obtain ⟨rest, hrest⟩ := ih next.length hshorter next rfl
      exact ⟨rest, .again hnext.symm hrest⟩
    · exact ⟨_, .done hdot⟩

theorem stripsTo_iff : StripsTo text rest ↔ rest = stripLeading text := by
  constructor
  · exact StripsTo.eq
  · rintro rfl
    obtain ⟨rest, hrest⟩ := exists_stripsTo text
    rwa [← hrest.eq]

/-! ## Slashes -/

/-- The same character, or a slash of either kind for one of the other. -/
def SameButSlash (c d : Char) : Prop := c = d ∨ IsSeparator c ∧ IsSeparator d

theorem sameButSlash_iff {c d : Char} :
    SameButSlash c d ↔ (if c = '\\' then '/' else c) = if d = '\\' then '/' else d := by
  unfold SameButSlash IsSeparator
  split <;> split <;> grind

theorem forwardSlashes_eq_iff {a b : List Char} :
    forwardSlashes a = forwardSlashes b ↔ List.Forall₂ SameButSlash a b := by
  rw [forwardSlashes, forwardSlashes, ← List.forall₂_eq_eq_eq, List.forall₂_map_left_iff,
    List.forall₂_map_right_iff]
  exact iff_of_eq (congrArg (List.Forall₂ · a b) (by ext c d; exact sameButSlash_iff.symm))

theorem backslash_notMem_forwardSlashes (text : List Char) : '\\' ∉ forwardSlashes text := by
  intro hmem
  obtain ⟨c, -, hc⟩ := List.mem_map.mp hmem
  split at hc
  · exact absurd hc (by decide)
  · rename_i hne
    exact hne hc

/-- A text without slashes has been written so. -/
theorem eq_of_forwardSlashes_eq (h : forwardSlashes front = text) (hslash : '/' ∉ text) :
    front = text := by
  rw [← h, forwardSlashes_eq_self]
  intro hmem
  exact hslash (h ▸ List.mem_map.mpr ⟨'\\', hmem, rfl⟩)

/-- Behind what leads them, the texts differ only in which slashes they have. -/
def SameBehindLead (a b : List Char) : Prop :=
  ∃ front back front' back', a = front ++ back ∧ b = front' ++ back' ∧
    IsLead (forwardSlashes front) ∧ IsLead (forwardSlashes front') ∧
    List.Forall₂ SameButSlash back back'

/-- A text comes apart into what leads it and the rest, which is canonical but for its slashes. -/
theorem exists_back (text : List Char) :
    ∃ front back, text = front ++ back ∧ IsLead (forwardSlashes front) ∧
      forwardSlashes back = normalizeChars text := by
  obtain ⟨lead, hlead, htext⟩ := exists_lead (forwardSlashes text)
  obtain ⟨front, back, rfl, rfl, hback⟩ := List.map_eq_append_iff.mp htext
  exact ⟨front, back, rfl, hlead, hback⟩

theorem normalizeChars_eq_iff {a b : List Char} :
    normalizeChars a = normalizeChars b ↔ SameBehindLead a b := by
  constructor
  · intro h
    obtain ⟨front, back, ha, hfront, hback⟩ := exists_back a
    obtain ⟨front', back', hb, hfront', hback'⟩ := exists_back b
    refine ⟨front, back, front', back', ha, hb, hfront, hfront', ?_⟩
    rw [← forwardSlashes_eq_iff, hback, hback', h]
  · rintro ⟨front, back, front', back', rfl, rfl, hfront, hfront', hback⟩
    rw [normalizeChars, normalizeChars, forwardSlashes_append, forwardSlashes_append,
      hfront.stripLeading_append, hfront'.stripLeading_append, forwardSlashes_eq_iff.mpr hback]

/-! ## Canonical names -/

theorem stripLeading_isSuffix (text : List Char) : stripLeading text <:+ text := by
  obtain ⟨front, -, htext⟩ := exists_lead text
  exact ⟨front, htext.symm⟩

theorem toList_normalize (stored : String) :
    (normalize stored).toList = stripLeading (forwardSlashes stored.toList) :=
  String.toList_ofList

theorem normalizeChars_normalizeChars (text : List Char) :
    normalizeChars (normalizeChars text) = normalizeChars text := by
  have hslashes : '\\' ∉ normalizeChars text := by
    intro hmem
    exact backslash_notMem_forwardSlashes text ((stripLeading_isSuffix _).subset hmem)
  rw [normalizeChars, forwardSlashes_eq_self hslashes]
  exact (isBare_stripLeading _).stripLeading_eq

theorem hasClassSuffix_of_normalize {stored : String}
    (h : Filter.hasClassSuffix (normalize stored) = true) : Filter.hasClassSuffix stored = true := by
  have hsuffix : classSuffix.toList <:+ (normalize stored).toList :=
    List.isSuffixOf_iff_suffix.mp h
  rw [toList_normalize] at hsuffix
  obtain ⟨before, hbefore⟩ := hsuffix.trans (stripLeading_isSuffix _)
  obtain ⟨front, back, hstored, -, hback⟩ := List.map_eq_append_iff.mp hbefore.symm
  have hclass : back = classSuffix.toList := eq_of_forwardSlashes_eq hback (by decide)
  exact List.isSuffixOf_iff_suffix.mpr ⟨front, by rw [hstored, hclass]⟩

/-- The rounds end with the only text that is left behind markers and begins with none, so that
names with one canonical form are those that differ in markers and in the kind of their slashes. -/
theorem normalize_canonical (stored : String) :
    (∀ rest, StripsTo (forwardSlashes stored.toList) rest ↔ rest = (normalize stored).toList) ∧
      (∀ rest, (IsBare rest ∧
          ∃ front, IsLead front ∧ forwardSlashes stored.toList = front ++ rest) ↔
        rest = (normalize stored).toList) ∧
      normalize (normalize stored) = normalize stored ∧
      (∀ other, normalize stored = normalize other ↔
        SameBehindLead stored.toList other.toList) ∧
      (Filter.hasClassSuffix stored = true ↔ Filter.hasClassSuffix (normalize stored) = true) := by
  refine ⟨fun rest => ?_, fun rest => ?_, ?_, fun other => ?_, ?_⟩
  · rw [toList_normalize, stripsTo_iff]
  · rw [toList_normalize, eq_stripLeading_iff]
  · rw [normalize, normalize, String.toList_ofList, normalizeChars_normalizeChars]
  · rw [← normalizeChars_eq_iff]
    exact String.ofList_inj
  · exact ⟨hasClassSuffix_normalize, hasClassSuffix_of_normalize⟩

example : normalize ".//\\./.hidden/../C.class" = ".hidden/../C.class" := by decide

end JvmSymbols.EntryName
