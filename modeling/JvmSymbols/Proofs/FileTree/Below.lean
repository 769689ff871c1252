import JvmSymbols.FileTree.Operations
import JvmSymbols.Proofs.FileTree.Untouched
import JvmSymbols.Proofs.Source.NamedFiles

/-!
# Files below a directory

A path that goes down from a directory leads to what stands below it (`node_descend`). If a tree
holds just some files below a directory, a walk finds these by their paths (`exists_walk`).
-/

namespace JvmSymbols.FileTree

open FileSystem (Fault Found)
open JvmSymbols.Path (IsProper)

variable {tree : FileTree} {path root : Path} {here place : Location} {name : Name}
  {names : List Name} {node : Node}

/-! ## Paths that go down -/

theorem checkPath_eq_ok :
    checkPath path = .ok () ↔
      0 ∉ path.bytes ∧ path.bytes ≠ [] ∧ path.bytes.length ≤ longestPath := by
  rw [checkPath]
  split_ifs with hnul hempty hlong <;> simp_all

theorem ne_nil_of_node (h : tree.node path = .ok (place, node)) : path.bytes ≠ [] :=
  (checkPath_eq_ok.mp (node_eq_ok.mp h).1).2.1

/-- A path that starts like one that can be followed can be followed, too. -/
theorem checkPath_of_append {longer : Path} {suffix : Bytes} (hne : path.bytes ≠ [])
    (hbytes : longer.bytes = path.bytes ++ suffix) (h : checkPath longer = .ok ()) :
    checkPath path = .ok () := by
  obtain ⟨hnul, -, hlength⟩ := checkPath_eq_ok.mp h
  rw [hbytes, List.length_append] at hlength
  rw [hbytes, List.mem_append, not_or] at hnul
  exact checkPath_eq_ok.mpr ⟨hnul.1, hne, (Nat.le_add_right _ _).trans hlength⟩

/-- One name more goes one step down from a directory. -/
theorem node_join (h : tree.node path = .ok (place, .directory)) (hname : IsProper name)
    (hlength : name.length ≤ longestName) (hnode : tree.get? (place ++ [name]) = some node)
    (hlink : ∀ target, node ≠ .link target) (hcheck : checkPath (path.join ⟨name⟩) = .ok ()) :
    tree.node (path.join ⟨name⟩) = .ok (place ++ [name], node) := by
  have hne := ne_nil_of_node h
  obtain ⟨front, -, hnames, -, hjoin⟩ := Path.exists_split_join hne hname
  have hleads : Leads tree (startOf (path.join ⟨name⟩) tree.working) front place := by
    rw [startOf_eq (Path.isAbsolute_join hne hname), ← Leads.namesOf_iff, ← hnames,
      Leads.namesOf_iff]
    exact leads_of_node h
  exact hleads.node hcheck hjoin ⟨hname.not_isIdle, hname.ne_dotDot⟩ hlength hnode hlink

/-- A path goes down through directories to what stands at its end. -/
theorem node_descend (h : tree.node path = .ok (place, .directory)) (hne : names ≠ [])
    (hnames : ∀ name ∈ names, IsProper name ∧ name.length ≤ longestName)
    (hway : ∀ n, 0 < n → n < names.length → tree.get? (place ++ names.take n) = some .directory)
    (hnode : tree.get? (place ++ names) = some node) (hlink : ∀ target, node ≠ .link target)
    (hcheck : checkPath (path.descend names) = .ok ()) :
    tree.node (path.descend names) = .ok (place ++ names, node) := by
  induction names generalizing path place with
  | nil => exact absurd rfl hne
  | cons name names ih =>
    obtain ⟨⟨hname, hlength⟩, hnames⟩ := List.forall_mem_cons.mp hnames
    have hpath := ne_nil_of_node h
    by_cases hlast : names = []
    · subst hlast
      exact node_join h hname hlength hnode hlink hcheck
    · have hjoin := Path.join_ne_nil hpath hname
      obtain ⟨rest, -, hrest⟩ := Path.exists_bytes_descend hjoin fun other hother =>
        (hnames other hother).1
      have hdown := node_join h hname hlength
        (hway 1 Nat.one_pos (Nat.succ_lt_succ (List.length_pos_of_ne_nil hlast))) nofun
        (checkPath_of_append hjoin hrest hcheck)
      have hon : ∀ n, 0 < n → n < names.length →
          tree.get? (place ++ [name] ++ names.take n) = some .directory := by
        intro n _ hn
        rw [← List.append_cons]
        exact hway (n + 1) n.succ_pos (Nat.succ_lt_succ hn)
      rw [List.append_cons] at hnode ⊢
      exact ih hdown hlast hnames hon hnode hcheck

/-! ## Files and directories -/

/-- What holds something is a directory. -/
theorem Closed.above_append (hclosed : tree.Closed) (hne : names ≠ [])
    (h : tree.get? (here ++ names) = some node) : tree.get? here = some .directory := by
  induction names using List.reverseRecOn generalizing node with
  | nil => exact absurd rfl hne
  | append_singleton names last ih =>
    rw [← List.append_assoc] at h
    have hdirectory := hclosed.above h
    by_cases hnil : names = []
    · rwa [hnil, List.append_nil] at hdirectory
    · exact ih hnil hdirectory

/-- Below the directory are just these files, and directories. -/
structure Holds (tree : FileTree) (place : Location) (files : List NamedFile) : Prop where
  only {rest : Location} {node : Node} : rest ≠ [] → tree.get? (place ++ rest) = some node →
    node = .directory ∨ ∃ f ∈ files, rest = f.location ∧ node = .file f.content
  all {f : NamedFile} : f ∈ files → tree.get? (place ++ f.location) = some (.file f.content)
  way {f : NamedFile} : f ∈ files → ∀ n, 0 < n → n < f.location.length →
    tree.get? (place ++ f.location.take n) = some .directory

variable {files : List NamedFile} {f : NamedFile}

theorem notMem_nul_path (hroot : tree.node root = .ok (place, node)) (hfiles : AreFiles files)
    (hf : f ∈ files) : 0 ∉ (f.path root).bytes := by
  obtain ⟨hnul, hne, -⟩ := checkPath_eq_ok.mp (node_eq_ok.mp hroot).1
  obtain ⟨suffix, hsuffix, hbytes⟩ := Path.exists_bytes_descend hne (hfiles.isProper hf)
  rw [NamedFile.path, hbytes, List.mem_append, not_or]
  refine ⟨hnul, fun hmem => ?_⟩
  rcases hsuffix 0 hmem with hslash | ⟨name, hname, hmem⟩
  · exact absurd hslash (by decide)
  · exact hfiles.notMem_nul hf name hname hmem

/-- A file that is held can be opened by its path, unless that or one of its names is too long. -/
theorem Holds.node_path (h : tree.Holds place files)
    (hroot : tree.node root = .ok (place, .directory)) (hfiles : AreFiles files) (hf : f ∈ files)
    (hpath : (f.path root).bytes.length ≤ longestPath)
    (hnames : ∀ name ∈ f.location, name.length ≤ longestName) :
    tree.node (f.path root) = .ok (place ++ f.location, .file f.content) := by
  have hne := ne_nil_of_node hroot
  obtain ⟨suffix, -, hbytes⟩ := Path.exists_bytes_descend hne (hfiles.isProper hf)
  have hpathNe : (f.path root).bytes ≠ [] := by
    rw [NamedFile.path, hbytes]
    exact List.append_ne_nil_of_left_ne_nil hne suffix
  have hcheck : checkPath (f.path root) = .ok () :=
    checkPath_eq_ok.mpr ⟨notMem_nul_path hroot hfiles hf, hpathNe, hpath⟩
  exact node_descend hroot (hfiles.location_ne_nil hf)
    (fun name hname => ⟨hfiles.isProper hf name hname, hnames name hname⟩) (h.way hf) (h.all hf)
    nofun hcheck

theorem read_of_long (hnul : 0 ∉ path.bytes) (hlong : longestPath < path.bytes.length) :
    tree.read path = .error .nameTooLong := by
  have hempty : path.bytes.isEmpty = false :=
    List.isEmpty_eq_false_iff.mpr (List.ne_nil_of_length_pos (Nat.zero_lt_of_lt hlong))
  have hcheck : checkPath path = .error .nameTooLong := by
    rw [checkPath, if_neg (by simpa using hnul), hempty, if_neg Bool.false_ne_true, if_pos hlong]
  rw [read, FileTree.node, resolve, hcheck]
  rfl

theorem mem_below {entry : Location × Node} :
    entry ∈ tree.below here ↔
      ∃ rest, rest ≠ [] ∧ entry.1 = here ++ rest ∧ tree.get? (here ++ rest) = some entry.2 := by
  rw [below, List.mem_filter, Std.TreeMap.mem_toList_iff_getElem?_eq_some, Bool.and_eq_true,
    List.isPrefixOf_iff_prefix, bne_iff_ne]
  constructor
  · rintro ⟨hnode, ⟨rest, hrest⟩, hne⟩
    refine ⟨rest, ?_, hrest.symm, hrest ▸ hnode⟩
    rintro rfl
    exact hne (hrest.symm.trans (List.append_nil _))
  · rintro ⟨rest, hne, hrest, hnode⟩
    refine ⟨hrest ▸ hnode, ⟨rest, hrest.symm⟩, fun hsame => hne ?_⟩
    exact List.append_right_eq_self.mp (hrest.symm.trans hsame)

/-- What a tree holds is seen from what stands below the directory. -/
theorem Holds.of_below
    (honly : ∀ entry ∈ tree.below place, entry.2 = .directory ∨
      ∃ f ∈ files, entry.1 = place ++ f.location ∧ entry.2 = .file f.content)
    (hall : ∀ f ∈ files, tree.get? (place ++ f.location) = some (.file f.content))
    (hway : ∀ f ∈ files, ∀ n < f.location.length, 0 < n →
      tree.get? (place ++ f.location.take n) = some .directory) : tree.Holds place files where
  only {rest node} hne hnode := by
    have hmem : (place ++ rest, node) ∈ tree.below place :=
      mem_below.mpr ⟨rest, hne, rfl, hnode⟩
    refine (honly _ hmem).imp_right ?_
    rintro ⟨f, hf, hplace, hfile⟩
    exact ⟨f, hf, List.append_cancel_left hplace, hfile⟩
  all hf := hall _ hf
  way hf n hpos hn := hway _ hf n hn hpos

theorem mem_reached {entry : Path × Node} :
    entry ∈ tree.reached root here ↔
      ∃ rest, rest ≠ [] ∧ tree.get? (here ++ rest) = some entry.2 ∧
        entry.1 = root.descend rest := by
  have hdrop (rest : Location) : (here ++ rest).drop here.length = rest := List.drop_left
  rw [reached, List.mem_map]
  constructor
  · rintro ⟨⟨place, node⟩, hmem, rfl⟩
    obtain ⟨rest, hne, rfl, hnode⟩ := mem_below.mp hmem
    exact ⟨rest, hne, hnode, congrArg root.descend (hdrop rest)⟩
  · obtain ⟨path, node⟩ := entry
    rintro ⟨rest, hne, hnode, rfl⟩
    refine ⟨(here ++ rest, node), mem_below.mpr ⟨rest, hne, rfl, hnode⟩, ?_⟩
    exact congrArg (fun rest => (root.descend rest, node)) (hdrop rest)

theorem find?_reached :
    (tree.reached root here).find? (fun (path, node) => isTooDeep path node) = none ↔
      ∀ rest, rest ≠ [] → tree.get? (here ++ rest) = some .directory →
        (root.descend rest).bytes.length ≤ longestPath := by
  rw [List.find?_eq_none]
  constructor
  · intro h rest hne hnode
    have hmem : (root.descend rest, Node.directory) ∈ tree.reached root here :=
      mem_reached.mpr ⟨rest, hne, hnode, rfl⟩
    simpa [isTooDeep] using h _ hmem
  · intro h entry hentry
    obtain ⟨rest, hne, hnode, hpath⟩ := mem_reached.mp hentry
    by_cases hdirectory : entry.2 = .directory
    · simp [isTooDeep, hdirectory, hpath, h rest hne (hdirectory ▸ hnode)]
    · simp [isTooDeep, hdirectory]

/-- A walk gets to its end if there is no directory that it cannot list. -/
theorem walk_eq_ok {found : List (Path × Found)} (hroot : tree.node root = .ok (here, node)) :
    tree.walk root = .ok found ↔
      (∀ rest, rest ≠ [] → tree.get? (here ++ rest) = some .directory →
        (root.descend rest).bytes.length ≤ longestPath) ∧
      (tree.reached root here).filterMap (fun (path, node) => do
        return (path, ← tree.found? path node)) = found := by
  rw [← find?_reached, walk, hroot]
  rcases hfind : (tree.reached root here).find? (fun (path, node) => isTooDeep path node) with
    _ | entry <;> simp only [Except.mapError, Except.bind, bind, hfind]
  · exact ⟨fun h => ⟨trivial, Except.ok.inj h⟩, fun h => congrArg Except.ok h.2⟩
  · exact ⟨nofun, nofun⟩

/-- A walk finds the files below a directory, unless there is a directory that it cannot list. -/
theorem Holds.exists_walk (h : tree.Holds place files)
    (hroot : tree.node root = .ok (place, .directory)) (hfiles : AreFiles files)
    (hdeep : ∀ rest, rest ≠ [] → tree.get? (place ++ rest) = some .directory →
      (root.descend rest).bytes.length ≤ longestPath) :
    ∃ found, tree.walk root = .ok found ∧
      ∀ entry, entry ∈ found ↔ ∃ f ∈ files, entry = (f.path root, .file) := by
  refine ⟨_, (walk_eq_ok hroot).mpr ⟨hdeep, rfl⟩, fun entry => ?_⟩
  rw [List.mem_filterMap]
  constructor
  · rintro ⟨⟨path, node⟩, hmem, hfound⟩
    obtain ⟨rest, hne, hnode, hpath⟩ := mem_reached.mp hmem
    dsimp only at hnode hpath hfound
    rcases h.only hne hnode with rfl | ⟨f, hf, rfl, rfl⟩
    · cases hfound
    · cases hfound
      exact ⟨f, hf, hpath ▸ rfl⟩
  · rintro ⟨f, hf, rfl⟩
    exact ⟨(f.path root, .file f.content),
      mem_reached.mpr ⟨f.location, hfiles.location_ne_nil hf, h.all hf, rfl⟩, rfl⟩

end JvmSymbols.FileTree
