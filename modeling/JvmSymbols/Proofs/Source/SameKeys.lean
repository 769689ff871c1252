import JvmSymbols.Proofs.Source.Listings
import JvmSymbols.Proofs.Source.NamedFiles
import JvmSymbols.Dump.AnyOrder
import JvmSymbols.Source.Directory

/-!
# The keys of files

A file has one key, whether it is found below a directory or in an archive (`keys_select_eq`), and
there is one file behind a key.
-/

namespace JvmSymbols

open FileSystem (Found)

variable {files : List NamedFile} {filter : Filter} {root : Path} {found : List (Path × Found)}
  {key : String}

theorem DirectorySource.keyed?_eq_some {path other : Path} {f : Found} :
    keyed? root filter path f = some (key, other) ↔ isFile f = true ∧
      relativeKey root path = some key ∧ filter.accepts key = true ∧ other = path := by
  have hkeyed : keyed? root filter path f = if isFile f = true then
      (relativeKey root path).bind fun key =>
        if filter.accepts key then some (key, path) else none
      else none := by
    rw [keyed?]
    cases isFile f
    · rfl
    · rcases relativeKey root path with _ | key
      · rfl
      · by_cases haccepts : filter.accepts key = true <;> simp [haccepts]
  rw [hkeyed]
  constructor
  · intro hpair
    split at hpair
    · rename_i hfile
      obtain ⟨name, hname, hpair⟩ := Option.bind_eq_some_iff.mp hpair
      split at hpair
      · rename_i haccepts
        cases hpair
        exact ⟨hfile, hname, haccepts, rfl⟩
      · cases hpair
    · cases hpair
  · rintro ⟨hfile, hkey, haccepts, rfl⟩
    rw [if_pos hfile, hkey, Option.bind_some, if_pos haccepts]

theorem DirectorySource.mem_keyed (hfiles : AreFiles files) (hroot : root.bytes ≠ [])
    (hfound : ∀ entry, entry ∈ found ↔ ∃ f ∈ files, entry = (f.path root, .file)) {path : Path} :
    (key, path) ∈ found.filterMap (fun (path, f) => keyed? root filter path f) ↔
      ∃ f ∈ files, filter.accepts f.key = true ∧ key = f.key ∧ path = f.path root := by
  have hkey {f : NamedFile} (hf : f ∈ files) : relativeKey root (f.path root) = some f.key :=
    relativeKey_descend hroot (hfiles.clean hf) (hfiles.ne_nil hf)
  rw [List.mem_filterMap]
  constructor
  · rintro ⟨entry, hentry, hpair⟩
    obtain ⟨f, hf, rfl⟩ := (hfound entry).mp hentry
    obtain ⟨-, hname, haccepts, rfl⟩ := keyed?_eq_some.mp hpair
    obtain rfl := Option.some.inj ((hkey hf).symm.trans hname)
    exact ⟨f, hf, haccepts, rfl, rfl⟩
  · rintro ⟨f, hf, haccepts, rfl, rfl⟩
    exact ⟨_, (hfound _).mpr ⟨f, hf, rfl⟩, keyed?_eq_some.mpr ⟨rfl, hkey hf, haccepts, rfl⟩⟩

/-- The entries of the archive that are no directories are spellings of the files, and give their
content. -/
structure Archive.Holds (archive : Archive) (files : List NamedFile) : Prop where
  only {stored : String} : stored ∈ archive.names → ArchiveSource.isDirectoryName stored = false →
    ∃ f ∈ files, EntryName.Spells stored f.names ∧ archive.read stored = .ok f.content
  all {f : NamedFile} : f ∈ files → ∃ stored ∈ archive.names, EntryName.Spells stored f.names

theorem ArchiveSource.keyed?_eq_some {stored name : String} :
    keyed? filter stored = some (key, name) ↔ isDirectoryName stored = false ∧
      EntryName.normalize stored = key ∧ filter.accepts key = true ∧ name = stored := by
  have hkeyed : keyed? filter stored =
      if isDirectoryName stored = false ∧ filter.accepts (EntryName.normalize stored) = true
      then some (EntryName.normalize stored, stored) else none := by
    rw [keyed?]
    by_cases hdirectory : isDirectoryName stored = true
    · rw [if_neg (by simp [hdirectory])]
      simp only [hdirectory]
      rfl
    · by_cases haccepts : filter.accepts (EntryName.normalize stored) = true
      · simp [hdirectory, haccepts]
      · rw [if_neg (by simp [haccepts])]
        simp only [hdirectory, haccepts]
        rfl
  rw [hkeyed]
  constructor
  · intro hpair
    split at hpair
    · rename_i haccepted
      cases hpair
      exact ⟨haccepted.1, rfl, haccepted.2, rfl⟩
    · cases hpair
  · rintro ⟨hfile, rfl, haccepts, rfl⟩
    rw [if_pos ⟨hfile, haccepts⟩]

theorem ArchiveSource.mem_keyed {archive : Archive} (hfiles : AreFiles files)
    (harchive : archive.Holds files) {order : List String}
    (horder : ∀ stored, stored ∈ order ↔ stored ∈ archive.names) {stored : String} :
    (key, stored) ∈ order.filterMap (keyed? filter) ↔
      stored ∈ archive.names ∧ ∃ f ∈ files, filter.accepts f.key = true ∧ key = f.key ∧
        EntryName.Spells stored f.names ∧ archive.read stored = .ok f.content := by
  rw [List.mem_filterMap]
  constructor
  · rintro ⟨other, hother, hpair⟩
    obtain ⟨hfile, rfl, haccepts, rfl⟩ := keyed?_eq_some.mp hpair
    have hmem := (horder stored).mp hother
    obtain ⟨f, hf, hspells, hread⟩ := harchive.only hmem hfile
    have hkey : EntryName.normalize stored = f.key := hspells.normalize (hfiles.clean hf)
    exact ⟨hmem, f, hf, hkey ▸ haccepts, hkey, hspells, hread⟩
  · rintro ⟨hmem, f, hf, haccepts, rfl, hspells, -⟩
    exact ⟨stored, (horder stored).mpr hmem, keyed?_eq_some.mpr
      ⟨hspells.isDirectoryName (hfiles.clean hf), hspells.normalize (hfiles.clean hf), haccepts, rfl⟩⟩

/-- The key of a file leads to its path. -/
theorem DirectorySource.exists_pathOf (hfiles : AreFiles files) (hroot : root.bytes ≠ [])
    (hfound : ∀ entry, entry ∈ found ↔ ∃ f ∈ files, entry = (f.path root, .file))
    (hkey : key ∈ ((ofRoot root).select filter found).listed.keys) :
    ∃ f ∈ files, filter.accepts f.key = true ∧ key = f.key ∧
      ((ofRoot root).select filter found).pathOf key = f.path root := by
  obtain ⟨path, hpath⟩ := Listing.exists_of_mem_keys hkey
  obtain ⟨f, hf, haccepts, hkey, rfl⟩ :=
    (mem_keyed hfiles hroot hfound).mp (Listing.mem_of_getElem?_ofPairs hpath)
  refine ⟨f, hf, haccepts, hkey, ?_⟩
  rw [pathOf, hpath]

/-- The key of a file leads to a stored name that gives its content. -/
theorem ArchiveSource.exists_outcome {archive : Archive} (hfiles : AreFiles files)
    (harchive : archive.Holds files) {order : Archive → List String}
    (horder : ∀ stored, stored ∈ order archive ↔ stored ∈ archive.names) (path : Path)
    (hkey : key ∈ ((ArchiveSource.mk path archive ∅).listIn order filter).1) :
    ∃ f ∈ files, key = f.key ∧
      ((ArchiveSource.mk path archive ∅).listIn order filter).2.outcome key =
        .ok (.ok f.content) := by
  obtain ⟨stored, hstored⟩ := Listing.exists_of_mem_keys hkey
  obtain ⟨-, f, hf, -, hkey, -, hread⟩ :=
    (mem_keyed hfiles harchive horder).mp (Listing.mem_of_getElem?_ofPairs hstored)
  refine ⟨f, hf, hkey, ?_⟩
  have hname : ((ArchiveSource.mk path archive ∅).listIn order filter).2.nameOf key = stored := by
    rw [nameOf, listIn, hstored, Option.getD_some]
  rw [outcome, hname, listIn, hread]

/-- The files have the same keys in the directory and in the archive. -/
theorem keys_select_eq {archive : Archive} (hfiles : AreFiles files) (hroot : root.bytes ≠ [])
    (hfound : ∀ entry, entry ∈ found ↔ ∃ f ∈ files, entry = (f.path root, .file))
    (harchive : archive.Holds files) {order : Archive → List String}
    (horder : ∀ stored, stored ∈ order archive ↔ stored ∈ archive.names) (path : Path) :
    ((DirectorySource.ofRoot root).select filter found).listed.keys =
      ((ArchiveSource.mk path archive ∅).listIn order filter).1 := by
  refine Listing.keys_ofPairs_congr fun key => ?_
  constructor
  · rintro ⟨_, hpair⟩
    obtain ⟨f, hf, haccepts, rfl, -⟩ := (DirectorySource.mem_keyed hfiles hroot hfound).mp hpair
    obtain ⟨stored, hmem, hspells⟩ := harchive.all hf
    obtain ⟨g, hg, hspells', hread⟩ :=
      harchive.only hmem (hspells.isDirectoryName (hfiles.clean hf))
    have hkeys : f.key = g.key :=
      (hspells.normalize (hfiles.clean hf)).symm.trans (hspells'.normalize (hfiles.clean hg))
    cases hfiles.eq_of_key hf hg hkeys
    exact ⟨stored, (ArchiveSource.mem_keyed hfiles harchive horder).mpr
      ⟨hmem, f, hf, haccepts, rfl, hspells, hread⟩⟩
  · rintro ⟨_, hpair⟩
    obtain ⟨-, f, hf, haccepts, rfl, -⟩ :=
      (ArchiveSource.mem_keyed hfiles harchive horder).mp hpair
    exact ⟨_, (DirectorySource.mem_keyed hfiles hroot hfound).mpr ⟨f, hf, haccepts, rfl, rfl⟩⟩

end JvmSymbols
