import JvmSymbols.Proofs.Dump.RootListing
import JvmSymbols.Proofs.Source.SameKeys

/-!
# Roots that are listed again

A report that is written where no candidate is looked for changes nothing about what is listed:
the candidates of the tree that it leaves are those of the tree from which it was made
(`Listed.again`).
-/

namespace JvmSymbols

open Dump (Failure)
open FileSystem (Found)
open JvmSymbols.Path (IsProper)

/-! ## Keys of temporary files -/

theorem exists_toList_keyOf_concat (names : List String) (last : String) :
    ∃ front, (keyOf (names ++ [last])).toList = front ++ last.toList := by
  induction names with
  | nil => exact ⟨[], EntryName.toList_keyOf_singleton last⟩
  | cons name names ih =>
    obtain ⟨front, hfront⟩ := ih
    refine ⟨name.toList ++ '/' :: front, ?_⟩
    rw [List.cons_append, EntryName.toList_keyOf_cons (by simp), hfront, List.append_assoc,
      List.cons_append]

namespace Filter

theorem accepts_eq_false {name : String} (filter : Filter) (h : name.toList.getLast? ≠ some 's') :
    filter.accepts name = false := by
  have hsuffix : hasClassSuffix name = false := by
    rw [← Bool.not_eq_true]
    intro hclass
    obtain ⟨front, hfront⟩ := List.isSuffixOf_iff_suffix.mp hclass
    rw [← hfront, List.getLast?_append] at h
    exact h rfl
  rw [accepts, hsuffix, Bool.false_and]

end Filter

namespace Dump

/-- No key ends like the name of a temporary file. -/
theorem accepts_temporary (filter : Filter) (names : List Name) (last : Name) :
    filter.accepts (keyOf ((names ++ [last ++ suffix]).map Utf8.decodeLossy)) = false := by
  apply filter.accepts_eq_false
  obtain ⟨front, hfront⟩ := exists_toList_keyOf_concat (names.map Utf8.decodeLossy)
    (Utf8.decodeLossy (last ++ suffix))
  have hsuffix : suffix = 46 :: [116, 109, 112] := by decide
  obtain ⟨text, htext⟩ := Utf8.exists_decodeLossy_append last (b := 46) (by decide) [116, 109, 112]
  have hlast : (Utf8.decodeLossy (46 :: [116, 109, 112])).toList.getLast? = some 'p' := by decide
  rw [List.map_append, List.map_singleton, hfront, hsuffix, htext, List.getLast?_append,
    List.getLast?_append, hlast, Option.some_or, Option.some_or]
  decide

end Dump

/-! ## Walking -/

namespace FileTree

variable {tree tree' : FileTree} {root : Path} {here place : Location} {node : Node}
  {found : List (Path × Found)} {filter : Filter}

theorem filterMap_toList_congr {α : Type} {f : Location → Node → Option α}
    (h : ∀ place, (tree.get? place).bind (f place) = (tree'.get? place).bind (f place)) :
    tree.nodes.toList.filterMap (fun entry => f entry.1 entry.2) =
      tree'.nodes.toList.filterMap fun entry => f entry.1 entry.2 := by
  have hequiv : (tree.nodes.filterMap f).Equiv (tree'.nodes.filterMap f) := by
    apply Std.TreeMap.Equiv.of_forall_constGet?_eq
    intro place
    rw [Std.TreeMap.getElem?_filterMap', Std.TreeMap.getElem?_filterMap']
    exact h place
  have hlist := congrArg (List.map Prod.snd) hequiv.toList_eq
  simpa [Std.TreeMap.toList_filterMap, List.map_filterMap, Function.comp_def] using hlist

/-- What is listed for a node below the directory `here`. -/
def listedAt? (root : Path) (here : Location) (filter : Filter) (place : Location) :
    Node → Option (String × Path)
  | .file _ =>
    if here.isPrefixOf place && place != here then
      DirectorySource.keyed? root filter (root.descend (place.drop here.length)) .file
    else none
  | _ => none

theorem listedAt?_eq_some {pair : String × Path}
    (h : listedAt? root here filter place node = some pair) :
    ∃ bytes rest, node = .file bytes ∧ rest ≠ [] ∧ place = here ++ rest ∧
      pair.2 = root.descend rest ∧ relativeKey root (root.descend rest) = some pair.1 ∧
      filter.accepts pair.1 = true := by
  cases node with
  | directory | link | device => exact nomatch h
  | file bytes =>
    rw [listedAt?] at h
    split at h
    · rename_i hbelow
      rw [Bool.and_eq_true, List.isPrefixOf_iff_prefix, bne_iff_ne] at hbelow
      obtain ⟨⟨rest, rfl⟩, hne⟩ := hbelow
      rw [List.drop_left] at h
      obtain ⟨-, hkey, haccepts, hpath⟩ := DirectorySource.keyed?_eq_some.mp h
      refine ⟨bytes, rest, rfl, ?_, rfl, hpath, hkey, haccepts⟩
      rintro rfl
      exact hne (List.append_nil here)
    · cases h

/-- The files that are listed are told place by place. -/
theorem filterMap_found (filter : Filter) (hlinkless : tree.Linkless)
    (hfound : (tree.reached root here).filterMap (fun (path, node) => do
      return (path, ← tree.found? path node)) = found) :
    found.filterMap (fun (path, f) => DirectorySource.keyed? root filter path f) =
      tree.nodes.toList.filterMap fun entry => listedAt? root here filter entry.1 entry.2 := by
  rw [← hfound, List.filterMap_filterMap, reached, List.filterMap_map, below, List.filterMap_filter]
  refine List.filterMap_congr fun entry hentry => ?_
  obtain ⟨place, node⟩ := entry
  have hnode : tree.get? place = some node := Std.TreeMap.mem_toList_iff_getElem?_eq_some.mp hentry
  cases node with
  | link target => exact absurd hnode (hlinkless place target)
  | directory | device => simp [found?, listedAt?]
  | file bytes => simp [found?, listedAt?]

/-- A key that is listed is that of a node below the directory. -/
theorem exists_listedAt? {key : String} (hlinkless : tree.Linkless)
    (hroot : tree.node root = .ok (here, node)) (hwalk : tree.walk root = .ok found)
    (hkey : key ∈ ((DirectorySource.ofRoot root).select filter found).listed.keys) :
    ∃ place node, tree.get? place = some node ∧ listedAt? root here filter place node =
      some (key, ((DirectorySource.ofRoot root).select filter found).pathOf key) := by
  obtain ⟨path, hpath⟩ := Listing.exists_of_mem_keys hkey
  have hpair := Listing.mem_of_getElem?_ofPairs hpath
  have hpairs := filterMap_found filter hlinkless ((walk_eq_ok hroot).mp hwalk).2
  rw [DirectorySource.ofRoot, hpairs] at hpair
  obtain ⟨⟨place, node⟩, hentry, hlisted⟩ := List.mem_filterMap.mp hpair
  refine ⟨place, node, Std.TreeMap.mem_toList_iff_getElem?_eq_some.mp hentry, ?_⟩
  rw [DirectorySource.pathOf, hpath]
  exact hlisted

end FileTree

namespace Dump

variable {settings : Settings} {before after : FileTree} {here place : Location} {node : Node}
  {candidates : List (Candidate World)} {summary : Summary}

/-! ## Reports outside of what is listed -/

/-- The report is written where nothing is looked for: below a directory its key is none that the
filter accepts, and neither it nor the temporary file is the archive. -/
structure Elsewhere (settings : Settings) (tree : FileTree) : Prop where
  directory {here rest : Location} {key : String} :
    tree.node settings.root = .ok (here, .directory) → tree.placeOf settings.output = here ++ rest →
      relativeKey settings.root (settings.root.descend rest) = some key →
      settings.filter.accepts key = false
  archive {here : Location} {bytes : Bytes} : tree.node settings.root = .ok (here, .file bytes) →
    here ≠ tree.placeOf settings.output ∧ here ≠ tree.placeOf (temporary settings.output)

/-- The directories that are to be made above the output can be listed from the root. -/
def Listable (settings : Settings) (tree : FileTree) : Prop :=
  ∀ path ∈ settings.output.above, ∀ here rest,
    tree.node settings.root = .ok (here, .directory) → tree.placeOf path = here ++ rest →
      tree.get? (here ++ rest) = none →
      (settings.root.descend rest).bytes.length ≤ FileTree.longestPath

theorem exists_placeOf_temporary (tree : FileTree) (output : Path) :
    ∃ directory last, tree.placeOf (temporary output) = directory ++ [last ++ suffix] := by
  obtain ⟨front, last, hsplit⟩ := Path.exists_split output.bytes
  refine ⟨front.foldl FileTree.stepTo (FileTree.startOf (temporary output) tree.working), last, ?_⟩
  rw [FileTree.placeOf, split_temporary hsplit, List.foldl_concat,
    FileTree.stepTo_plain (isPlain_temporary last)]

variable {pair : String × Path}

theorem Elsewhere.ne_output (h : Elsewhere settings before)
    (hroot : before.node settings.root = .ok (here, .directory))
    (hlisted : FileTree.listedAt? settings.root here settings.filter place node = some pair) :
    place ≠ before.placeOf settings.output := by
  obtain ⟨_, rest, -, -, rfl, -, hkey, haccepts⟩ := FileTree.listedAt?_eq_some hlisted
  intro hplace
  exact nomatch (h.directory hroot hplace.symm hkey).symm.trans haccepts

theorem ne_temporary (hregular : before.Regular)
    (hroot : before.node settings.root = .ok (here, .directory))
    (hnode : before.get? place = some node)
    (hlisted : FileTree.listedAt? settings.root here settings.filter place node = some pair) :
    place ≠ before.placeOf (temporary settings.output) := by
  obtain ⟨_, rest, -, hne, rfl, -, hkey, haccepts⟩ := FileTree.listedAt?_eq_some hlisted
  obtain ⟨directory, last, htemporary⟩ := exists_placeOf_temporary before settings.output
  have hproper : ∀ name ∈ rest, IsProper name := fun name hname =>
    hregular.isProper hnode name (List.mem_append_right here hname)
  rw [relativeKey_descend_names (FileTree.ne_nil_of_node hroot) hproper hne] at hkey
  rw [htemporary]
  intro hplace
  obtain ⟨names, name, rfl⟩ := (List.eq_nil_or_concat rest).resolve_left hne
  rw [List.concat_eq_append, ← List.append_assoc] at hplace
  obtain rfl : name = last ++ suffix := List.singleton_inj.mp (List.append_inj' hplace rfl).2
  have hrefused := accepts_temporary settings.filter names last
  rw [List.concat_eq_append] at hkey
  rw [Option.some.inj hkey] at hrefused
  exact nomatch hrefused.symm.trans haccepts

namespace Leaves

variable (h : Leaves settings.output before after)
include h

/-- What was there stays, if it was neither the output nor the temporary file. -/
theorem get?_eq (houtput : place ≠ before.placeOf settings.output)
    (htemporary : place ≠ before.placeOf (temporary settings.output))
    (hplace : before.get? place ≠ none) : after.get? place = before.get? place := by
  by_contra hchanged
  exact hplace (h.others houtput htemporary hchanged).1

theorem node_directory (hroot : before.node settings.root = .ok (here, .directory)) :
    after.node settings.root = .ok (here, .directory) := by
  refine FileTree.Leads.node_directory ?_ (FileTree.node_eq_ok.mp hroot).1
  rw [h.working]
  exact (FileTree.leads_of_node hroot).ways h.ways

theorem node_archive {bytes : Bytes} (helsewhere : Elsewhere settings before)
    (hroot : before.node settings.root = .ok (here, .file bytes)) :
    after.node settings.root = .ok (here, .file bytes) := by
  obtain ⟨houtput, htemporary⟩ := helsewhere.archive hroot
  refine FileTree.node_kept hroot h.ways h.working (h.get?_eq houtput htemporary ?_)
  rw [FileTree.get?_of_node hroot]
  exact nofun

/-- Every directory can still be listed. -/
theorem length_le (hlistable : Listable settings before)
    (hroot : before.node settings.root = .ok (here, .directory))
    (hfits : ∀ rest, rest ≠ [] → before.get? (here ++ rest) = some .directory →
      (settings.root.descend rest).bytes.length ≤ FileTree.longestPath) :
    ∀ rest, rest ≠ [] → after.get? (here ++ rest) = some .directory →
      (settings.root.descend rest).bytes.length ≤ FileTree.longestPath := by
  intro rest hne hnode
  by_cases hsame : after.get? (here ++ rest) = before.get? (here ++ rest)
  · exact hfits rest hne (hsame ▸ hnode)
  have houtput : here ++ rest ≠ before.placeOf settings.output := by
    obtain ⟨bytes, hreport⟩ := h.report
    intro hplace
    rw [hplace, hreport] at hnode
    cases hnode
  have htemporary : here ++ rest ≠ before.placeOf (temporary settings.output) := by
    intro hplace
    rw [hplace, h.cleared] at hnode
    cases hnode
  obtain ⟨hmissing, -, path, hpath, hplace⟩ := h.others houtput htemporary hsame
  exact hlistable path hpath here rest hroot hplace hmissing

/-- The same is listed place by place before and after. -/
theorem listedAt?_eq (hregular : before.Regular) (helsewhere : Elsewhere settings before)
    (hroot : before.node settings.root = .ok (here, .directory)) (place : Location) :
    (before.get? place).bind (FileTree.listedAt? settings.root here settings.filter place) =
      (after.get? place).bind (FileTree.listedAt? settings.root here settings.filter place) := by
  by_cases houtput : place = before.placeOf settings.output
  · have hnever (node : Node) :
        FileTree.listedAt? settings.root here settings.filter place node = none :=
      Option.eq_none_iff_forall_ne_some.mpr fun pair hlisted =>
        helsewhere.ne_output hroot hlisted houtput
    exact (Option.bind_eq_none_iff.mpr fun node _ => hnever node).trans
      (Option.bind_eq_none_iff.mpr fun node _ => hnever node).symm
  by_cases htemporary : place = before.placeOf (temporary settings.output)
  · have hbefore : (before.get? place).bind
        (FileTree.listedAt? settings.root here settings.filter place) = none := by
      refine Option.bind_eq_none_iff.mpr fun node hnode => ?_
      exact Option.eq_none_iff_forall_ne_some.mpr fun pair hlisted =>
        ne_temporary hregular hroot hnode hlisted htemporary
    rw [hbefore, htemporary, h.cleared, Option.bind_none]
  by_cases hsame : after.get? place = before.get? place
  · rw [hsame]
  · obtain ⟨hmissing, hdirectory, -⟩ := h.others houtput htemporary hsame
    rw [hmissing, hdirectory]
    rfl

end Leaves

/-- What was listed before the report was made is listed again. -/
theorem Listed.again (h : Listed settings before candidates) (hregular : before.Regular)
    (helsewhere : Elsewhere settings before) (hlistable : Listable settings before)
    (hleaves : Leaves settings.output before after) : Listed settings after candidates := by
  cases h with
  | input hroot hinput => exact .input (hleaves.node_directory hroot) hinput
  | directory hroot hinput hwalk hsource =>
    have hroot' := hleaves.node_directory hroot
    obtain ⟨hfits, hfound⟩ := (FileTree.walk_eq_ok hroot).mp hwalk
    have hfits' := hleaves.length_le hlistable hroot hfits
    refine .directory hroot' hinput ((FileTree.walk_eq_ok hroot').mpr ⟨hfits', rfl⟩) ?_
    have hpairs := FileTree.filterMap_toList_congr (hleaves.listedAt?_eq hregular helsewhere hroot)
    rw [← FileTree.filterMap_found settings.filter hregular.linkless hfound,
      ← FileTree.filterMap_found settings.filter (hleaves.linkless hregular.linkless) rfl] at hpairs
    rw [← hsource, DirectorySource.select, DirectorySource.select]
    exact congrArg (fun pairs => DirectorySource.mk settings.root (.ofPairs pairs)) hpairs.symm
  | archive hroot hopen hsource =>
    exact .archive (hleaves.node_archive helsewhere hroot) hopen hsource

end Dump

end JvmSymbols
