import JvmSymbols.Proofs.FileTree.Following

/-!
# What stands at a path

The parts of a path but its last one lead to a directory or nowhere (`Leads`); what stands at the
path is what the directory holds under the last part (`object?_of_leads`). The place of an entry is
found the same way (`entry_of_leads`).
-/

namespace JvmSymbols.FileTree

open FileSystem (Fault)
open JvmSymbols.Path (namesOf)

variable {tree tree' : FileTree} {start directory : Location} {front : List Name} {last : Name}
  {path : Path}

/-! ## Directories -/

/-- The parts lead from `start` to a directory. -/
def Leads (tree : FileTree) (start : Location) (front : List Name) (directory : Location) : Prop :=
  follow tree .target linkLimit start (front ++ [[]]) = .ok (.found directory .directory)

theorem follow_slash (links : Nat) :
    follow tree .target links directory [[]] = .ok (.found directory .directory) := by
  rw [follow_eq, followParts_idle rfl, followParts]

/-- What comes of the parts whatever follows them. -/
theorem leads_or_fails (tree : FileTree) (start : Location) (front : List Name) :
    (∃ directory left, Leads tree start front directory ∧
      (tree.Closed → tree.get? start = some .directory → tree.get? directory = some .directory) ∧
      ∀ tree', Ways tree tree' → ∀ aim rest, Rests aim rest →
        follow tree' aim linkLimit start (front ++ rest) = follow tree' aim left directory rest) ∨
    (∀ directory, ¬Leads tree start front directory) ∧
      ∃ fault, ∀ aim rest, Rests aim rest →
        follow tree aim linkLimit start (front ++ rest) = .error fault := by
  rcases parts_follow tree linkLimit start front with ⟨directory, left, hdirectory, h⟩ | ⟨fault, h⟩
  · refine .inl ⟨directory, left, ?_, hdirectory, h⟩
    exact (h tree (.refl tree) .target [[]] (rests_slash [])).trans (follow_slash left)
  · refine .inr ⟨fun directory hleads => ?_, fault, h⟩
    cases (h .target [[]] (rests_slash [])).symm.trans hleads

namespace Leads

theorem unique {directory' : Location} (h : Leads tree start front directory)
    (h' : Leads tree start front directory') : directory = directory' := by
  rw [Leads] at h h'
  rw [h] at h'
  cases h'
  rfl

theorem exists_left (h : Leads tree start front directory) :
    ∃ left, (tree.Closed → tree.get? start = some .directory →
      tree.get? directory = some .directory) ∧
      ∀ tree', Ways tree tree' → ∀ aim rest, Rests aim rest →
        follow tree' aim linkLimit start (front ++ rest) = follow tree' aim left directory rest := by
  rcases leads_or_fails tree start front with ⟨directory', left, h', hrest⟩ | ⟨hnone, -⟩
  · cases h.unique h'
    exact ⟨left, hrest⟩
  · exact absurd h (hnone directory)

theorem ways (h : Leads tree start front directory) (hways : Ways tree tree') :
    Leads tree' start front directory := by
  obtain ⟨left, -, hleft⟩ := h.exists_left
  exact (hleft tree' hways .target [[]] (rests_slash [])).trans (follow_slash left)

theorem of_append {back : List Name} (h : Leads tree start (front ++ back) directory) :
    ∃ directory', Leads tree start front directory' := by
  rcases leads_or_fails tree start front with ⟨directory', -, h', -⟩ | ⟨-, fault, hfault⟩
  · exact ⟨directory', h'⟩
  · rw [Leads, List.append_assoc, hfault .target _ (rests_slash back)] at h
    cases h

theorem namesOf_iff : Leads tree start (namesOf front) directory ↔
    Leads tree start front directory := by
  rw [Leads, Leads, follow_namesOf tree linkLimit start front]

theorem concat (h : Leads tree start front directory) (hplain : IsPlain last)
    (hlength : last.length ≤ longestName) (hget : tree.get? (directory ++ [last]) = some .directory) :
    Leads tree start (front ++ [last]) (directory ++ [last]) := by
  obtain ⟨left, -, hleft⟩ := h.exists_left
  have hslash : Rests .target [[]] := rests_slash []
  rw [Leads, List.append_assoc, hleft tree (.refl tree) .target ([last] ++ [[]]) (rests_slash [last]),
    follow_eq, List.singleton_append, followParts_on hplain hslash hlength, hget]
  exact followParts_idle rfl

theorem dotDot (h : Leads tree start front directory) :
    Leads tree start (front ++ [Path.dotDot]) directory.dropLast := by
  obtain ⟨left, -, hleft⟩ := h.exists_left
  rw [Leads, List.append_assoc, hleft tree (.refl tree) .target _ (rests_slash [Path.dotDot]),
    follow_eq,
    List.singleton_append, followParts_dotDot]
  exact followParts_idle rfl

/-- What the next part was looked up as. -/
theorem exists_followParts (h : Leads tree start front directory) {directory' : Location}
    (h' : Leads tree start (front ++ [last]) directory') :
    ∃ left, followParts tree .target (expandWithin tree .target left) directory [last, []] =
      .ok (.found directory' .directory) := by
  obtain ⟨left, -, hleft⟩ := h.exists_left
  rw [Leads, List.append_assoc, hleft tree (.refl tree) .target ([last] ++ [[]]) (rests_slash [last]),
    follow_eq] at h'
  exact ⟨left, h'⟩

theorem length_le (hplain : IsPlain last) (h : Leads tree start (front ++ [last]) directory) :
    last.length ≤ longestName := by
  obtain ⟨directory', h'⟩ := h.of_append
  obtain ⟨left, hfollow⟩ := h'.exists_followParts h
  have hslash : Rests .target [[]] := rests_slash []
  by_contra hlong
  rw [followParts_long hplain (.inr hslash) (Nat.lt_of_not_le hlong)] at hfollow
  cases hfollow

theorem get?_ne_none (h : Leads tree start front directory) (hplain : IsPlain last)
    {directory' : Location} (h' : Leads tree start (front ++ [last]) directory') :
    tree.get? (directory ++ [last]) ≠ none := by
  intro hnone
  have hslash : Rests .target [[]] := rests_slash []
  obtain ⟨left, hfollow⟩ := h.exists_followParts h'
  rw [followParts_on hplain hslash (h'.length_le hplain), hnone] at hfollow
  cases hfollow

end Leads

/-! ## Objects -/

/-- What stands at a path, be it a link. -/
def object? (tree : FileTree) (path : Path) : Option Node :=
  match tree.resolve .itself path with
  | .ok (.found _ node) => some node
  | _ => none

/-- What a directory that was reached holds under the last part of a path. -/
def held? (tree : FileTree) (directory : Location) (last : Name) : Option Node :=
  if Path.isIdle last = true ∨ last = Path.dotDot then some .directory
  else if longestName < last.length then none
  else tree.get? (directory ++ [last])

theorem held?_plain (hplain : IsPlain last) (hlength : last.length ≤ longestName) :
    tree.held? directory last = tree.get? (directory ++ [last]) := by
  rw [held?, if_neg (by simp [hplain.not_isIdle, hplain.ne_dotDot]), if_neg (Nat.not_lt.mpr hlength)]

section
variable (hcheck : checkPath path = .ok ()) (hsplit : Path.split path.bytes = front ++ [last])
include hcheck hsplit

theorem resolve_of_parts (aim : Aim) :
    tree.resolve aim path = follow tree aim linkLimit (startOf path tree.working)
      (front ++ [last]) := by
  rw [resolve, hcheck, hsplit]
  rfl

theorem object?_of_leads (hleads : Leads tree (startOf path tree.working) front directory) :
    tree.object? path = tree.held? directory last := by
  obtain ⟨left, -, hleft⟩ := hleads.exists_left
  have hlast : Rests .itself [last] := ⟨by simp, nofun⟩
  rw [object?, resolve_of_parts hcheck hsplit, hleft tree (.refl tree) .itself [last] hlast,
    follow_eq]
  by_cases hidle : Path.isIdle last = true
  · rw [followParts_idle hidle, followParts, held?, if_pos (.inl hidle)]
  by_cases hdots : last = Path.dotDot
  · rw [hdots, followParts_dotDot, followParts, held?, if_pos (.inr rfl)]
  have hplain : IsPlain last := ⟨by simpa using hidle, hdots⟩
  by_cases hlong : longestName < last.length
  · rw [followParts_long hplain (.inl rfl) hlong, held?, if_neg (by simp [hidle, hdots]),
      if_pos hlong]
  · have hlength := Nat.le_of_not_lt hlong
    rw [followParts_last hplain hlength, held?_plain hplain hlength]
    rcases tree.get? (directory ++ [last]) with _ | _ | bytes | target | device <;> rfl

theorem object?_of_not_leads
    (hnone : ∀ directory, ¬Leads tree (startOf path tree.working) front directory) :
    tree.object? path = none := by
  rcases leads_or_fails tree (startOf path tree.working) front
    with ⟨directory, -, h, -⟩ | ⟨-, fault, hfault⟩
  · exact absurd h (hnone directory)
  · rw [object?, resolve_of_parts hcheck hsplit, hfault .itself [last] ⟨by simp, nofun⟩]

end

theorem object?_of_checkPath {fault : Fault} (hcheck : checkPath path = .error fault) :
    tree.object? path = none := by
  rw [object?, resolve, hcheck]
  rfl

/-- Two trees in which the same directories are reached hold the same at a path if those hold the
same under its last part. -/
theorem object?_congr (hsplit : Path.split path.bytes = front ++ [last])
    (hleads : ∀ directory, Leads tree' (startOf path tree'.working) front directory ↔
      Leads tree (startOf path tree.working) front directory)
    (hheld : ∀ directory, Leads tree (startOf path tree.working) front directory →
      tree'.held? directory last = tree.held? directory last) :
    tree'.object? path = tree.object? path := by
  rcases hcheck : checkPath path with fault | _
  · rw [object?_of_checkPath hcheck, object?_of_checkPath hcheck]
  by_cases h : ∃ directory, Leads tree (startOf path tree.working) front directory
  · obtain ⟨directory, h⟩ := h
    rw [object?_of_leads hcheck hsplit h, object?_of_leads hcheck hsplit ((hleads directory).mpr h),
      hheld directory h]
  · have hnone := not_exists.mp h
    rw [object?_of_not_leads hcheck hsplit hnone,
      object?_of_not_leads hcheck hsplit fun directory h' =>
        hnone directory ((hleads directory).mp h')]

/-! ## Entries -/

/-- The empty parts at the end of a path are those behind its last slashes. -/
theorem exists_split_replicate {parts reversed : List Name} {last : Name}
    (h : parts.reverse.dropWhile List.isEmpty = last :: reversed) :
    last ≠ [] ∧ ∃ count, parts = reversed.reverse ++ last :: List.replicate count [] := by
  constructor
  · rintro rfl
    have hhead := List.head?_dropWhile_not List.isEmpty parts.reverse
    rw [h] at hhead
    cases hhead
  · obtain ⟨count, hcount⟩ : ∃ count, parts.reverse.takeWhile List.isEmpty =
      List.replicate count [] :=
      ⟨_, List.eq_replicate_of_mem fun part hpart =>
        List.isEmpty_iff.mp (List.all_eq_true.mp List.all_takeWhile part hpart)⟩
    have hparts : parts.reverse = List.replicate count [] ++ last :: reversed := by
      rw [← h, ← hcount, List.takeWhile_append_dropWhile]
    refine ⟨count, ?_⟩
    rw [← List.reverse_reverse parts, hparts]
    simp

theorem dropWhile_reverse_split {count : Nat}
    (hsplit : Path.split path.bytes = front ++ last :: List.replicate count []) (hlast : last ≠ []) :
    (Path.split path.bytes).reverse.dropWhile List.isEmpty = last :: front.reverse := by
  rw [hsplit, List.reverse_append, List.reverse_cons, List.append_assoc, List.reverse_replicate,
    List.dropWhile_append_of_pos (by simp), List.singleton_append,
    List.dropWhile_cons_of_neg (by simpa)]

theorem entry_of_leads {count : Nat} (hcheck : checkPath path = .ok ())
    (hsplit : Path.split path.bytes = front ++ last :: List.replicate count [])
    (hplain : IsPlain last)
    (hlength : last.length ≤ longestName)
    (hleads : Leads tree (startOf path tree.working) front directory) :
    tree.entry path =
      .ok (.named (directory ++ [last]) (path.bytes.getLast? == some Path.slash)) := by
  have hname : ¬(last = Path.dot ∨ last = Path.dotDot) :=
    not_or.mpr ⟨hplain.ne_dot, hplain.ne_dotDot⟩
  have hfollow : follow tree .target linkLimit (startOf path tree.working)
      (front.reverse.reverse ++ [[]]) = .ok (.found directory .directory) := by
    rwa [List.reverse_reverse]
  rw [entry, hcheck, dropWhile_reverse_split hsplit hplain.ne_nil]
  simp only [hfollow, bind, Except.bind]
  rw [if_neg hname, if_neg (Nat.not_lt.mpr hlength)]
  rfl

/-- A path that ends in a name is that of an entry without a slash behind it. -/
theorem entry_of_split (hcheck : checkPath path = .ok ())
    (hsplit : Path.split path.bytes = front ++ [last])
    (hplain : IsPlain last) (hlength : last.length ≤ longestName)
    (hleads : Leads tree (startOf path tree.working) front directory) :
    tree.entry path = .ok (.named (directory ++ [last]) false) := by
  have hslash : (path.bytes.getLast? == some Path.slash) = false := by
    simpa using Path.getLast?_of_split hsplit hplain.ne_nil
  have hparts : Path.split path.bytes = front ++ last :: List.replicate 0 [] := hsplit
  rw [← hslash]
  exact entry_of_leads hcheck hparts hplain hlength hleads

theorem entry_eq_named {place : Location} {slash : Bool}
    (h : tree.entry path = .ok (.named place slash)) :
    ∃ front last count directory, checkPath path = .ok () ∧
      Path.split path.bytes = front ++ last :: List.replicate count [] ∧ IsPlain last ∧
      last.length ≤ longestName ∧ Leads tree (startOf path tree.working) front directory ∧
      place = directory ++ [last] ∧ slash = (path.bytes.getLast? == some Path.slash) := by
  rcases hcheck : checkPath path with fault | _
  · rw [entry, hcheck] at h
    cases h
  rcases hreverse : (Path.split path.bytes).reverse.dropWhile List.isEmpty with _ | ⟨last, reversed⟩
  · rw [entry, hcheck, hreverse] at h
    cases h
  obtain ⟨hlast, count, hsplit⟩ := exists_split_replicate hreverse
  rw [entry, hcheck, hreverse] at h
  rcases leads_or_fails tree (startOf path tree.working) reversed.reverse with
    ⟨directory, -, hleads, -⟩ | ⟨-, fault, hfault⟩
  · rw [Leads] at hleads
    simp only [hleads, bind, Except.bind] at h
    split at h
    · cases h
    rename_i hname
    split at h
    · cases h
    rename_i hlength
    cases h
    refine ⟨_, last, count, directory, rfl, hsplit, ⟨?_, fun hdots => hname (.inr hdots)⟩,
      Nat.le_of_not_lt hlength, hleads, rfl, rfl⟩
    have hdot : last ≠ Path.dot := fun hdot => hname (.inl hdot)
    simp [Path.isIdle, hlast, hdot]
  · have hslash := hfault .target [[]] (rests_slash [])
    simp only [hslash, bind, Except.bind] at h
    cases h

/-- A path without a slash at its end ends in the name of its entry. -/
theorem entry_eq_named_false {place : Location} (h : tree.entry path = .ok (.named place false))
    (hsplit : Path.split path.bytes = front ++ [last]) :
    checkPath path = .ok () ∧ IsPlain last ∧ last.length ≤ longestName ∧
      ∃ directory, Leads tree (startOf path tree.working) front directory ∧
        place = directory ++ [last] := by
  obtain ⟨front', last', count, directory, hcheck, hsplit', hplain, hlength, hleads,
    hplace, hslash⟩ :=
    entry_eq_named h
  cases count with
  | zero =>
    obtain ⟨rfl, hlast⟩ := List.append_inj' (hsplit.symm.trans hsplit') rfl
    cases hlast
    exact ⟨hcheck, hplain, hlength, directory, hleads, hplace⟩
  | succ count =>
    have hend : Path.split path.bytes = (front' ++ last' :: List.replicate count []) ++ [[]] := by
      rw [hsplit', List.replicate_succ']
      simp
    have hbytes := Path.unsplit_split path.bytes
    rw [hend, Path.unsplit_slash (by simp)] at hbytes
    rw [← hbytes, List.getLast?_concat] at hslash
    simp at hslash

end JvmSymbols.FileTree
