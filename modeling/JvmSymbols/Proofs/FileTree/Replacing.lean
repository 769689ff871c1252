import JvmSymbols.Proofs.FileTree.Standing

/-!
# A file beside another one

A file that is opened, written and removed changes nothing at any other path (`SameBut.object?_eq`).
When it is moved to another path it takes the place of what stood there (`rename_eq`).
-/

namespace JvmSymbols

/-- What the node of an open file becomes when bytes are written to it. -/
def Node.extend (bytes : Bytes) : Node → Node
  | .file old => .file (old ++ bytes)
  | node => node

end JvmSymbols

namespace JvmSymbols.FileTree

variable {tree tree' tree'' : FileTree} {path : Path} {here : Location} {front : List Name}
  {last : Name}

/-! ## One place -/

/-- Neither a directory nor a link stands there. -/
def IsLeaf (tree : FileTree) (here : Location) : Prop :=
  tree.get? here ≠ some .directory ∧ ∀ target, tree.get? here ≠ some (.link target)

/-- The trees differ at most in what file, if any, stands at `here`. -/
structure SameBut (here : Location) (tree tree' : FileTree) : Prop where
  working : tree'.working = tree.working
  elsewhere {place : Location} : place ≠ here → tree'.get? place = tree.get? place
  isLeaf : tree.IsLeaf here
  isLeaf' : tree'.IsLeaf here

namespace SameBut

theorem symm (h : SameBut here tree tree') : SameBut here tree' tree where
  working := h.working.symm
  elsewhere hplace := (h.elsewhere hplace).symm
  isLeaf := h.isLeaf'
  isLeaf' := h.isLeaf

theorem ways (h : SameBut here tree tree') : Ways tree tree' := by
  intro place hplace
  refine h.elsewhere fun heq => ?_
  rcases hplace with hplace | ⟨target, hplace⟩
  · exact h.isLeaf.1 (heq ▸ hplace)
  · exact h.isLeaf.2 target (heq ▸ hplace)

theorem leads_iff (h : SameBut here tree tree') {start directory : Location} :
    Leads tree' start front directory ↔ Leads tree start front directory :=
  ⟨fun h' => h'.ways h.symm.ways, fun h' => h'.ways h.ways⟩

/-- Paths to other places are not concerned. -/
theorem object?_eq (h : SameBut here tree tree') (hsplit : Path.split path.bytes = front ++ [last])
    (hplace : IsPlain last → ∀ directory, Leads tree (startOf path tree.working) front directory →
      directory ++ [last] ≠ here) : tree'.object? path = tree.object? path := by
  refine object?_congr hsplit (fun directory => ?_) fun directory hleads => ?_
  · rw [h.working, h.leads_iff]
  · rw [held?, held?]
    split
    · rfl
    · rename_i hname
      have hplain : IsPlain last := ⟨by simpa using (not_or.mp hname).1, (not_or.mp hname).2⟩
      rw [h.elsewhere (hplace hplain directory hleads)]

end SameBut

/-! ## Opening and writing -/

/-- Bytes were written to the file that is open at `here`, if one stands there. -/
def Appended (here : Location) (held : Bytes) (tree tree' : FileTree) : Prop :=
  tree'.working = tree.working ∧
    ∀ place, tree'.get? place =
      if place = here then (tree.get? here).map (Node.extend held) else tree.get? place

theorem Appended.nothing (here : Location) (tree : FileTree) : Appended here [] tree tree := by
  refine ⟨rfl, fun place => ?_⟩
  split
  · rename_i hplace
    rw [hplace]
    rcases tree.get? here with _ | _ | bytes | target | device <;> simp [Node.extend]
  · rfl

theorem Appended.append {held bytes : Bytes} (h : Appended here held tree tree')
    (happend : tree'.append here bytes = .ok tree'') : Appended here (held ++ bytes) tree tree'' := by
  obtain ⟨hworking, hget⟩ := h
  have hhere : tree'.get? here = (tree.get? here).map (Node.extend held) := by
    rw [hget, if_pos rfl]
  rw [FileTree.append, hhere] at happend
  -- only a file is changed
  have hsame (hnode : (tree.get? here).map (Node.extend (held ++ bytes)) =
      (tree.get? here).map (Node.extend held)) : Appended here (held ++ bytes) tree tree' :=
    ⟨hworking, fun place => by rw [hget, hnode]⟩
  rcases hnode : tree.get? here with _ | _ | old | target | device
  · rw [hnode] at happend
    cases happend
    exact hsame (by rw [hnode]; rfl)
  · rw [hnode] at happend
    cases happend
    exact hsame (by rw [hnode]; rfl)
  · rw [hnode] at happend
    cases happend
    refine ⟨hworking, fun place => ?_⟩
    rw [get?_set, hget]
    by_cases hplace : place = here
    · rw [if_pos hplace.symm, if_pos hplace, hnode, Option.map_some, Node.extend, List.append_assoc]
    · rw [if_neg (Ne.symm hplace), if_neg hplace, if_neg hplace]
  · rw [hnode] at happend
    cases happend
    exact hsame (by rw [hnode]; rfl)
  · have hdevice := hsame (by rw [hnode]; rfl)
    rw [hnode] at happend
    cases device with
    | null =>
      cases happend
      exact hdevice
    | full =>
      simp only [Option.map_some, Node.extend] at happend
      split at happend <;> cases happend
      exact hdevice

/-- A file that is opened is empty, unless it is a device. -/
structure Opened (here : Location) (tree tree' : FileTree) : Prop
    extends SameBut here tree tree' where
  empty : (∀ device, tree.get? here ≠ some (.device device)) → tree'.get? here = some (.file [])

theorem Opened.of_set (hleaf : tree.IsLeaf here) : Opened here tree (tree.set here (.file [])) where
  working := rfl
  elsewhere hplace := by rw [get?_set, if_neg (Ne.symm hplace)]
  isLeaf := hleaf
  isLeaf' := by simp [IsLeaf, get?_set]
  empty _ := by rw [get?_set, if_pos rfl]

theorem Opened.of_device {device : Device} (hdevice : tree.get? here = some (.device device)) :
    Opened here tree tree where
  working := rfl
  elsewhere _ := rfl
  isLeaf := by simp [IsLeaf, hdevice]
  isLeaf' := by simp [IsLeaf, hdevice]
  empty h := absurd hdevice (h device)

theorem Opened.appended {held : Bytes} (h : Opened here tree tree')
    (happended : Appended here held tree' tree'') : SameBut here tree tree'' where
  working := happended.1.trans h.working
  elsewhere {place} hplace := by rw [happended.2, if_neg hplace, h.elsewhere hplace]
  isLeaf := h.isLeaf
  isLeaf' := by
    obtain ⟨hdirectory, hlink⟩ := h.isLeaf'
    rw [IsLeaf, happended.2, if_pos rfl]
    rcases hnode : tree'.get? here with _ | _ | bytes | target | device
    · simp
    · exact absurd hnode hdirectory
    · simp [Node.extend]
    · exact absurd hnode (hlink target)
    · simp [Node.extend]

/-! ## Removing -/

theorem remove_eq (h : tree.remove path = .ok tree') :
    ∃ place slash, tree.entry path = .ok (.named place slash) ∧ tree' = tree.erase place := by
  rcases hentry : tree.entry path with fault | ⟨place, slash⟩ | _
  · rw [remove, hentry] at h
    cases h
  · rw [remove, hentry] at h
    simp only [bind, Except.bind] at h
    rcases hnode : tree.get? place with _ | _ | bytes | target | device <;> rw [hnode] at h
    · cases h
    · cases h
    all_goals
      dsimp only at h
      split at h <;> cases h
      exact ⟨place, slash, rfl, rfl⟩
  · rw [remove, hentry] at h
    cases h

theorem SameBut.erase (h : SameBut here tree tree') : SameBut here tree (tree'.erase here) where
  working := h.working
  elsewhere {place} hplace := by rw [get?_erase, if_neg (Ne.symm hplace), h.elsewhere hplace]
  isLeaf := h.isLeaf
  isLeaf' := by simp [IsLeaf, get?_erase]

/-! ## Moving -/

theorem rename_eq {old new : Path} (h : tree.rename old new = .ok tree') :
    ∃ source target node, tree.entry old = .ok (.named source false) ∧
      tree.entry new = .ok (.named target false) ∧ tree.get? source = some node ∧
      tree.get? target ≠ some .directory ∧ tree' = (tree.erase source).set target node := by
  rcases hold : tree.entry old with fault | ⟨source, slash⟩ | _ <;>
    rcases hnew : tree.entry new with fault | ⟨target, slash'⟩ | _ <;>
    rw [rename, hold, hnew] at h <;> try cases h
  simp only [bind, Except.bind] at h
  have hmove {node : Node} (h : (if slash || slash' then throw .notDirectory
      else if tree.get? target = some .directory then throw .isDirectory
      else pure ((tree.erase source).set target node) : Except FileSystem.Fault FileTree)
        = .ok tree') :
      slash = false ∧ slash' = false ∧ tree.get? target ≠ some .directory ∧
        tree' = (tree.erase source).set target node := by
    split at h
    · cases h
    rename_i hslash
    split at h
    · cases h
    rename_i hdirectory
    cases h
    simp only [Bool.or_eq_true, not_or, Bool.not_eq_true] at hslash
    exact ⟨hslash.1, hslash.2, hdirectory, rfl⟩
  rcases hnode : tree.get? source with _ | _ | bytes | link | device <;> rw [hnode] at h
  · cases h
  · cases h
  all_goals
    obtain ⟨rfl, rfl, hdirectory, heq⟩ := hmove h
    exact ⟨source, target, _, rfl, rfl, hnode, hdirectory, heq⟩

theorem rename_of_entries {old new : Path} {source target : Location} {node : Node}
    (hold : tree.entry old = .ok (.named source false))
    (hnew : tree.entry new = .ok (.named target false)) (hnode : tree.get? source = some node)
    (hsource : node ≠ .directory) (htarget : tree.get? target ≠ some .directory) :
    tree.rename old new = .ok ((tree.erase source).set target node) := by
  rw [rename, hold, hnew]
  simp only [bind, Except.bind, hnode, Bool.or_self, Bool.false_eq_true, if_false, if_neg htarget]
  cases node with
  | directory => exact absurd rfl hsource
  | file | link | device => rfl

end JvmSymbols.FileTree
