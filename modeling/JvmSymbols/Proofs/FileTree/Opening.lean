import JvmSymbols.Proofs.FileTree.Untouched

/-!
# Files that are opened and removed again

A file is opened under its own name unless a link stands there (`place_of_create`). Whatever was
written to it since, something can be removed at its path (`exists_stands`), behind which nothing is
left (`object?_erase`).
-/

namespace JvmSymbols.FileTree

variable {tree opened filled : FileTree} {path : Path} {here directory : Location}
  {front : List Name} {last : Name} {held : Bytes}

theorem rests_file (hplain : IsPlain last) : Rests .file [last] :=
  ⟨List.cons_ne_nil _ _, fun _ => ⟨last, List.mem_cons_self, hplain.ne_nil⟩⟩

theorem place_of_create (h : tree.create path = .ok (here, opened))
    (hsplit : Path.split path.bytes = front ++ [last]) (hplain : IsPlain last) :
    checkPath path = .ok () ∧ last.length ≤ longestName ∧
      ∃ directory, Leads tree (startOf path tree.working) front directory ∧
        (here = directory ++ [last] ∨ ∃ target, tree.get? (directory ++ [last]) = some (.link target))
      := by
  rcases hcheck : checkPath path with fault | _
  · rw [create, resolve, hcheck] at h
    cases h
  have hname := rests_file hplain
  rw [create, resolve_of_parts hcheck hsplit] at h
  rcases leads_or_fails tree (startOf path tree.working) front with
    ⟨directory, left, hleads, -, hleft⟩ | ⟨-, fault, hfault⟩
  · rw [hleft tree (.refl tree) .file [last] hname, follow_eq] at h
    by_cases hlong : longestName < last.length
    · rw [followParts_long hplain (.inl rfl) hlong] at h
      cases h
    have hlength := Nat.le_of_not_lt hlong
    rw [followParts_last hplain hlength] at h
    refine ⟨rfl, hlength, directory, hleads, ?_⟩
    rcases hnode : tree.get? (directory ++ [last]) with _ | _ | bytes | target | device
    · rw [hnode] at h
      cases h
      exact .inl rfl
    · rw [hnode] at h
      cases h
    · rw [hnode] at h
      cases h
      exact .inl rfl
    · exact .inr ⟨target, rfl⟩
    · rw [hnode] at h
      cases h
      exact .inl rfl
  · rw [hfault .file [last] hname] at h
    cases h

/-- Where nothing stands a new file is opened. -/
theorem create_of_leads (hcheck : checkPath path = .ok ())
    (hsplit : Path.split path.bytes = front ++ [last]) (hplain : IsPlain last)
    (hlength : last.length ≤ longestName)
    (hleads : Leads tree (startOf path tree.working) front directory)
    (hnone : tree.get? (directory ++ [last]) = none) :
    tree.create path = .ok (directory ++ [last], tree.set (directory ++ [last]) (.file [])) := by
  obtain ⟨left, -, hleft⟩ := hleads.exists_left
  rw [create, resolve_of_parts hcheck hsplit, hleft tree (.refl tree) .file [last] (rests_file hplain),
    follow_eq, followParts_last hplain hlength, hnone]
  rfl

theorem exists_opened (h : tree.create path = .ok (here, opened))
    (hsplit : Path.split path.bytes = front ++ [last]) (hplain : IsPlain last)
    (hlink : ∀ target, tree.object? path ≠ some (.link target)) :
    checkPath path = .ok () ∧ last.length ≤ longestName ∧
      ∃ directory, Leads tree (startOf path tree.working) front directory ∧
        here = directory ++ [last] ∧ Opened here tree opened := by
  obtain ⟨hcheck, hlength, directory, hleads, hplace⟩ := place_of_create h hsplit hplain
  have hobject := object?_of_leads hcheck hsplit hleads
  rw [held?_plain hplain hlength] at hobject
  refine ⟨hcheck, hlength, directory, hleads, hplace.resolve_right ?_, opened_of_create h⟩
  rintro ⟨target, htarget⟩
  exact hlink target (hobject.trans htarget)

theorem get?_opened_ne_none (h : tree.create path = .ok (here, opened)) :
    opened.get? here ≠ none := by
  have hset (tree : FileTree) (node : Node) : (tree.set here node).get? here ≠ none := by
    rw [get?_set, if_pos rfl]
    exact Option.some_ne_none node
  rw [create] at h
  rcases hresolve : tree.resolve .file path with fault | ⟨place, node⟩ | place <;>
    rw [hresolve] at h
  · cases h
  · have hstands := (resolve_eq_ok.mp hresolve).2.stands
    cases node with
    | directory => cases h
    | link target => cases h
    | file bytes =>
      cases h
      exact hset tree _
    | device device =>
      cases h
      rw [hstands.resolve_left (by rintro ⟨⟩)]
      exact Option.some_ne_none _
  · cases h
    exact hset tree _

/-- A file or a link stands at a path that was opened. -/
theorem exists_stands (hcreate : tree.create path = .ok (here, opened))
    (hheld : Appended here held opened filled)
    (hsplit : Path.split path.bytes = front ++ [last]) (hplain : IsPlain last) :
    checkPath path = .ok () ∧ last.length ≤ longestName ∧
      ∃ directory node, Leads filled (startOf path filled.working) front directory ∧
        filled.get? (directory ++ [last]) = some node ∧ node ≠ .directory := by
  obtain ⟨hcheck, hlength, directory, hleads, hplace⟩ := place_of_create hcreate hsplit hplain
  have hsame : SameBut here tree filled := (opened_of_create hcreate).appended hheld
  refine ⟨hcheck, hlength, directory, ?_⟩
  rw [hsame.working]
  have hleads' := hsame.leads_iff.mpr hleads
  by_cases hhere : here = directory ++ [last]
  · have hne : filled.get? here ≠ none := by
      rw [hheld.2, if_pos rfl]
      exact fun hnone => get?_opened_ne_none hcreate (Option.map_eq_none_iff.mp hnone)
    obtain ⟨node, hnode⟩ := Option.ne_none_iff_exists'.mp hne
    refine ⟨node, hleads', hhere ▸ hnode, ?_⟩
    rintro rfl
    exact hsame.isLeaf'.1 hnode
  · obtain ⟨target, hlink⟩ := hplace.resolve_left hhere
    refine ⟨.link target, hleads', ?_, nofun⟩
    rw [hsame.elsewhere (Ne.symm hhere), hlink]

/-! ## Removing -/

theorem remove_of_leads {node : Node} (hcheck : checkPath path = .ok ())
    (hsplit : Path.split path.bytes = front ++ [last]) (hplain : IsPlain last)
    (hlength : last.length ≤ longestName)
    (hleads : Leads tree (startOf path tree.working) front directory)
    (hnode : tree.get? (directory ++ [last]) = some node) (hdirectory : node ≠ .directory) :
    tree.remove path = .ok (tree.erase (directory ++ [last])) := by
  rw [remove, entry_of_split hcheck hsplit hplain hlength hleads]
  simp only [bind, Except.bind, hnode]
  cases node with
  | directory => exact absurd rfl hdirectory
  | file | link | device => rfl

/-- Nothing stands at a path whose entry was removed. -/
theorem object?_erase (hcheck : checkPath path = .ok ())
    (hsplit : Path.split path.bytes = front ++ [last]) (hplain : IsPlain last)
    (hlength : last.length ≤ longestName)
    (hleads : Leads tree (startOf path tree.working) front directory) :
    (tree.erase (directory ++ [last])).object? path = none := by
  -- the ways of the erased tree are ways of the whole one
  have hways : Ways (tree.erase (directory ++ [last])) tree := by
    intro place hplace
    rw [get?_erase] at hplace ⊢
    split
    · rename_i heq
      rw [if_pos heq] at hplace
      rcases hplace with hplace | ⟨target, hplace⟩ <;> cases hplace
    · rfl
  by_cases h : ∃ directory', Leads (tree.erase (directory ++ [last]))
      (startOf path (tree.erase (directory ++ [last])).working) front directory'
  · obtain ⟨directory', h'⟩ := h
    obtain rfl : directory' = directory := (h'.ways hways).unique hleads
    rw [object?_of_leads hcheck hsplit h', held?_plain hplain hlength, get?_erase, if_pos rfl]
  · exact object?_of_not_leads hcheck hsplit (not_exists.mp h)

end JvmSymbols.FileTree
