import JvmSymbols.Proofs.Dump.Agreeing
import JvmSymbols.Proofs.FileSystem.WalkedRuns
import JvmSymbols.Proofs.FileTree.Below
import JvmSymbols.Proofs.Source.SameKeys

/-!
# The same files in a directory and in an archive

A directory and an archive that hold the same files are dumped alike
(`dump_directory_eq_dump_archive`): the keys of the files below the directory are the normal forms
of the names that are stored in the archive, and behind each key is the same content. What is read
from the directory stays as it is for as long as the report is written elsewhere.
-/

namespace JvmSymbols

open Archive (Abort)
open CarriesTree (tree)
open Dump (Failure)
open FileSystem (Found)
open FileTree (Appended)
open RunsOver (exec)

/-! ## Reports -/

namespace Dump

/-- The summary of the same report on another root. -/
def Summary.atRoot (root : Path) (summary : Summary) : Summary :=
  { summary with root := root.display }

/-- A report is made alike whatever the root is called. -/
theorem makeReport_root {m : Type → Type} [Monad m] [LawfulMonad m] [MonadExceptOf Abort m]
    [FileSystem m] (settings : Settings) (root : Path) (candidates : List (Candidate m)) :
    makeReport { settings with root } candidates =
      Summary.atRoot root <$> makeReport settings candidates := by
  simp only [makeReport, map_bind]
  refine congrArg _ (funext fun _ => congrArg _ (funext fun file => ?_))
  refine congrArg _ (funext fun r => ?_)
  rcases r with failure | ⟨tally, digest⟩
  · have hthrow : Summary.atRoot root <$> (throw failure : ExceptT Failure m Summary) =
        throw failure := by
      ext
      simp
    simp only [map_bind, hthrow]
  · simp only [map_bind, map_pure]
    rfl

/-- The directories below the root can be listed by their paths, and the files that the filter
accepts can be opened by theirs. -/
structure PathsFit (tree : FileTree) (root : Path) (place : Location) (filter : Filter)
    (files : List NamedFile) : Prop where
  directory {rest : Location} : rest ≠ [] → tree.get? (place ++ rest) = some .directory →
    (root.descend rest).bytes.length ≤ FileTree.longestPath
  path {f : NamedFile} : f ∈ files → filter.accepts f.key = true →
    (f.path root).bytes.length ≤ FileTree.longestPath
  name {f : NamedFile} : f ∈ files → filter.accepts f.key = true →
    ∀ name ∈ f.location, name.length ≤ FileTree.longestName

/-- The file that is opened to write the report is at none of the places. -/
def Apart (tree : FileTree) (output : Path) (places : List Location) : Prop :=
  ∀ parents opened here, FileTree.Made output.above tree parents →
    parents.create (temporary output) = .ok (here, opened) → here ∉ places

end Dump

/-! ## Runs -/

namespace WalkedBy

variable {walk : Walk} {tree : FileTree} {settings : Settings} {root : Path}
  {found : List (Path × Found)}

open Dump

theorem endsWith_detectRoot {kind : FileSystem.Kind} (h : tree.kind root = .ok kind) :
    EndsWith (detectRoot root : ExceptT Failure (WalkedBy walk) _).run ((), tree)
      (.ok (match kind with | .directory => .directory | _ => .archive)) ((), tree) := by
  have hkind : EndsWith (FileSystem.kind root : ExceptT FileSystem.Fault (WalkedBy walk) _).run
      ((), tree) (.ok kind) ((), tree) := endsWith_observe h
  rw [EndsWith, detectRoot, exec_run_bind_of_endsWith hkind.adapt]
  cases kind <;> exact RunsOver.exec_pure _ _

/-- Once the directory was walked, the report is made on what was found. -/
theorem exec_dumpDirectory (settings : Settings)
    (hinput : DirectorySource.isStandardInput settings.root = false)
    (hwalk : walk tree settings.root = .ok found) :
    let source := (DirectorySource.ofRoot settings.root).select settings.filter found
    exec (dumpDirectory settings : ExceptT Failure (WalkedBy walk) _).run ((), tree) =
      exec (makeReport settings (source.candidates source.listed.keys) :
        ExceptT Failure (WalkedBy walk) _).run ((), tree) := by
  intro source
  have hlist : EndsWith ((DirectorySource.ofRoot settings.root).list settings.filter :
      WalkedBy walk _) ((), tree) (.ok source.listed.keys, source) ((), tree) :=
    endsWith_list settings.filter hinput hwalk
  have hkeys : EndsWith (ExceptT.mk (pure (.ok source.listed.keys)) :
      ExceptT Failure (WalkedBy walk) _).run ((), tree) (.ok source.listed.keys) ((), tree) :=
    RunsOver.exec_pure _ _
  rw [dumpDirectory, exec_run_bind_of_endsWith hlist.lift]
  dsimp only
  rw [exec_run_bind_of_endsWith hkeys]

/-- Once the archive was opened, the report is made on its entries. -/
theorem exec_dumpArchiveIn (walk : Walk) (order : Archive → List String) (settings : Settings)
    {bytes : Bytes} {archive : Archive} (hmap : tree.map settings.root = .ok bytes)
    (hopen : Archive.ofBytes bytes = .ok archive) :
    let listed := (ArchiveSource.mk settings.root archive ∅).listIn order settings.filter
    exec (dumpArchiveIn order settings : ExceptT Failure (WalkedBy walk) _).run ((), tree) =
      exec (makeReport settings (listed.2.candidates listed.1) :
        ExceptT Failure (WalkedBy walk) _).run ((), tree) := by
  intro listed
  have hbytes : EndsWith (FileSystem.map settings.root :
      ExceptT FileSystem.Fault (WalkedBy walk) _).run ((), tree) (.ok bytes) ((), tree) :=
    endsWith_observe hmap
  have hsource : EndsWith (ExceptT.mk (pure (ArchiveSource.open? settings.root bytes)) :
      ExceptT Failure (WalkedBy walk) _).run ((), tree) (.ok ⟨settings.root, archive, ∅⟩)
      ((), tree) := by
    rw [ArchiveSource.open?, hopen]
    exact RunsOver.exec_pure _ _
  rw [dumpArchiveIn, exec_run_bind_of_endsWith hbytes.adapt, exec_run_bind_of_endsWith hsource]

/-- No time passes in a dump. -/
theorem endsWith_dumpOrdered {kind : RootKind} {order : Archive → List String}
    {r : Except Failure Summary} {after : FileTree}
    (hkind : EndsWith (detectRoot settings.root : ExceptT Failure (WalkedBy walk) _).run ((), tree)
      (.ok kind) ((), tree))
    (hdump : EndsWith (dumpAs order settings kind : ExceptT Failure (WalkedBy walk) _).run ((), tree)
      r ((), after)) :
    EndsWith (dumpOrdered order settings : ExceptT Failure (WalkedBy walk) _).run ((), tree)
      (r.map fun summary => { summary with durationMs := 0 }) ((), after) := by
  have htime (t : FileTree) : EndsWith (ExceptT.lift (FileSystem.milliseconds : WalkedBy walk Nat) :
      ExceptT Failure (WalkedBy walk) _).run ((), t) (.ok 0) ((), t) :=
    RunsOver.exec_pure _ _
  rw [EndsWith, dumpOrdered, exec_run_bind_of_endsWith (htime tree),
    exec_run_bind_of_endsWith hkind]
  cases r with
  | error failure => exact hdump.bind_error
  | ok summary =>
    rw [exec_run_bind_of_endsWith hdump, exec_run_bind_of_endsWith (htime after)]
    exact RunsOver.exec_pure _ _

/-! ## Reading -/

variable {place : Location} {order : Archive → List String} {archive : Archive} {path : Path}
  {files : List NamedFile} {filter : Filter} {key : String}

/-- An archive is read without a look at the file tree. -/
theorem endsWith_read_archive {source : ArchiveSource} {content : Bytes}
    (h : source.outcome key = .ok (.ok content)) (s : Unit × FileTree) :
    EndsWith (source.read key : ExceptT Failure (WalkedBy walk) Bytes).run s (.ok content) s := by
  rw [run_read_archive h]
  exact RunsOver.exec_pure _ _

theorem endsWith_read_directory {source : DirectorySource} {content : Bytes}
    (h : tree.read (source.pathOf key) = .ok content) :
    EndsWith (source.read key : ExceptT Failure (WalkedBy walk) Bytes).run ((), tree) (.ok content)
      ((), tree) := by
  have hread := endsWith_read walk tree source key
  rwa [h] at hread

/-- A file whose path is too long is not read, whatever the file tree holds. -/
theorem endsWith_read_long {source : DirectorySource} (hnul : 0 ∉ (source.pathOf key).bytes)
    (hlong : FileTree.longestPath < (source.pathOf key).bytes.length) (s : Unit × FileTree) :
    EndsWith (source.read key : ExceptT Failure (WalkedBy walk) Bytes).run s
      (.error (.unreadable key (.file .nameTooLong))) s := by
  have hread := endsWith_read walk s.2 source key
  rwa [FileTree.read_of_long hnul hlong] at hread

/-- The report on the entries of an archive is not given up if each can be read. -/
theorem exists_makeReport (walk : Walk) (settings : Settings) (source : ArchiveSource)
    (keys : List String)
    (h : ∀ key ∈ keys, ∃ content, source.outcome key = .ok (.ok content)) (s : Unit × FileTree) :
    ∃ r after, EndsWith (makeReport settings (source.candidates keys) :
      ExceptT Failure (WalkedBy walk) _).run s r ((), after) := by
  have hkeeps : ∀ c ∈ (source.candidates keys : List (Candidate (WalkedBy walk))),
      ∀ here opened, c.Keeps (fun held s => Appended here held opened (tree (WalkedBy walk) s.2))
        (GivenUp False fun held s => Appended here held opened (tree (WalkedBy walk) s))
        Anything := by
    intro c hc here opened held s hs
    obtain ⟨key, hkey, rfl⟩ := List.mem_map.mp hc
    obtain ⟨content, hcontent⟩ := h key hkey
    have hread : EndsWith (source.read key : ExceptT Failure (WalkedBy walk) Bytes).run s
      (.ok content) s := endsWith_read_archive hcontent s
    rw [Ends, hread]
    exact ⟨hs, trivial⟩
  obtain ⟨r, ⟨_, after⟩, hends, -⟩ := (ends_makeReport_of_steady hkeeps s).exists_endsWith
  exact ⟨r, after, hends⟩

/-! ## Files of a directory -/

section
variable (hfiles : AreFiles files) (hroot : tree.node root = .ok (place, .directory))
  (hfound : ∀ entry, entry ∈ found ↔ ∃ f ∈ files, entry = (f.path root, .file))
include hfiles hroot hfound

/-- The report on files of which no path fits is one on candidates that fail. -/
theorem exec_makeReport_long (walk : Walk) (settings : Settings)
    (hlong : ∀ f ∈ files, FileTree.longestPath < (f.path root).bytes.length) :
    let source := (DirectorySource.ofRoot root).select settings.filter found
    exec (makeReport settings (source.candidates source.listed.keys) :
        ExceptT Failure (WalkedBy walk) _).run ((), tree) =
      exec (makeReport settings (source.listed.keys.map fun key =>
          ⟨key, throw (.unreadable key (.file .nameTooLong))⟩) :
        ExceptT Failure (WalkedBy walk) _).run ((), tree) := by
  intro source
  have hquiet : ∀ key ∈ source.listed.keys, Quiet Anything
      (⟨key, throw (.unreadable key (.file .nameTooLong))⟩ : Candidate (WalkedBy walk)) :=
    fun key _ s => ends_run_throw.mpr ⟨rfl, trivial⟩
  refine exec_makeReport_congr (fun _ _ _ _ _ key hkey => ⟨rfl, fun _ s _ => ?_⟩) hquiet
  obtain ⟨f, hf, -, rfl, hpath⟩ :=
    DirectorySource.exists_pathOf hfiles (FileTree.ne_nil_of_node hroot) hfound hkey
  exact endsWith_read_long (hpath ▸ FileTree.notMem_nul_path hroot hfiles hf) (hpath ▸ hlong f hf) s

variable (hbelow : tree.Holds place files) (hentries : archive.Holds files)
  (horder : Archive.NamesAll order)
include hbelow hentries horder

/-- While the report is written elsewhere, a file is read in the directory as it is in the
archive. -/
theorem agree_candidates (hfit : PathsFit tree root place filter files)
    {parents opened : FileTree} {here : Location} {paths : List Path} {written : Path}
    (hmade : FileTree.Made paths tree parents)
    (hcreate : parents.create written = .ok (here, opened))
    (hapart : ∀ f ∈ files, filter.accepts f.key = true → place ++ f.location ≠ here)
    (hkey : key ∈ ((DirectorySource.ofRoot root).select filter found).listed.keys) :
    Candidate.Agree (fun held (s : Unit × FileTree) => Appended here held opened s.2)
      (⟨key, ((DirectorySource.ofRoot root).select filter found).read key⟩ :
        Candidate (WalkedBy walk))
      ⟨key, ((ArchiveSource.mk path archive ∅).listIn order filter).2.read key⟩ := by
  have hne := FileTree.ne_nil_of_node hroot
  obtain ⟨f, hf, haccepts, rfl, hpath⟩ := DirectorySource.exists_pathOf hfiles hne hfound hkey
  rw [keys_select_eq hfiles hne hfound hentries (horder archive) path] at hkey
  obtain ⟨g, hg, hkeys, houtcome⟩ :=
    ArchiveSource.exists_outcome hfiles hentries (horder archive) path hkey
  obtain rfl := hfiles.eq_of_key hf hg hkeys
  have hnode := hbelow.node_path hroot hfiles hf (hfit.path hf haccepts) (hfit.name hf haccepts)
  refine ⟨rfl, fun held ⟨_, after⟩ hheld => ?_⟩
  have hread := FileTree.read_appended hnode hmade hcreate (hapart f hf haccepts) hheld
  exact (endsWith_read_directory (hpath ▸ hread)).trans (endsWith_read_archive houtcome _).symm

/-- The report on the files of a directory is made like that on the entries of an archive. -/
theorem exec_makeReport_directory (walk : Walk) (settings : Settings) (path : Path)
    (hfit : PathsFit tree root place settings.filter files)
    (hapart : Apart tree settings.output
      ((files.filter fun f => settings.filter.accepts f.key).map (place ++ ·.location))) :
    let source := (DirectorySource.ofRoot root).select settings.filter found
    let listed := (ArchiveSource.mk path archive ∅).listIn order settings.filter
    exec (makeReport settings (source.candidates source.listed.keys) :
        ExceptT Failure (WalkedBy walk) _).run ((), tree) =
      exec (makeReport settings (listed.2.candidates listed.1) :
        ExceptT Failure (WalkedBy walk) _).run ((), tree) := by
  intro source listed
  have hkeys : source.listed.keys = listed.1 :=
    keys_select_eq hfiles (FileTree.ne_nil_of_node hroot) hfound hentries (horder archive) path
  rw [← hkeys]
  refine exec_makeReport_congr ?_
    fun key hkey => quiet_archive listed.2 _ _ (List.mem_map_of_mem hkey)
  intro parents here opened hmade hcreate key hkey
  refine agree_candidates hfiles hroot hfound hbelow hentries horder hfit hmade hcreate ?_ hkey
  rintro f hf haccepts rfl
  exact hapart parents opened _ hmade hcreate
    (List.mem_map_of_mem (List.mem_filter.mpr ⟨hf, haccepts⟩))

end

end WalkedBy

/-! ## Dumps -/

namespace Dump

open WalkedBy

variable {walk : Walk} {order : Archive → List String} {tree : FileTree}
  {directory archivePath : Path} {place place' : Location} {bytes : Bytes}
  {archive : Archive} {files : List NamedFile}

/-- A class `a` that declares nothing. -/
def plainClass : Bytes :=
  [0xCA, 0xFE, 0xBA, 0xBE, 0, 0, 0, 61, 0, 3, 1, 0, 1, 97, 7, 0, 1, 0, 33, 0, 2, 0, 0, 0, 0,
    0, 0, 0, 0, 0, 0]

/-- A class file and one that is cut off. -/
def twoFiles : List NamedFile := [⟨["a.class"], plainClass⟩, ⟨["p", "b.class"], [0xCA]⟩]

/-- An archive of the entries `./p\b.class`, `p/` and `a.class`, of which none is packed. -/
def twoFilesZip : Bytes :=
    [80, 75, 3, 4, 20, 0, 0, 0, 0, 0, 0, 0, 0, 0, 35, 196, 179, 169, 1, 0, 0, 0, 1, 0, 0, 0, 11,
    0, 0, 0, 46, 47, 112, 92, 98, 46, 99, 108, 97, 115, 115, 202, 80, 75, 3, 4, 20, 0, 0, 0, 0, 0,
    0, 0, 0, 0, 0, 0, 0, 0, 0, 0, 0, 0, 0, 0, 0, 0, 2, 0, 0, 0, 112, 47, 80, 75, 3, 4, 20, 0, 0,
    0, 0, 0, 0, 0, 0, 0, 200, 227, 160, 92, 31, 0, 0, 0, 31, 0, 0, 0, 7, 0, 0, 0, 97, 46, 99, 108,
    97, 115, 115, 202, 254, 186, 190, 0, 0, 0, 61, 0, 3, 1, 0, 1, 97, 7, 0, 1, 0, 33, 0, 2, 0, 0,
    0, 0, 0, 0, 0, 0, 0, 0, 80, 75, 1, 2, 20, 0, 20, 0, 0, 0, 0, 0, 0, 0, 0, 0, 35, 196, 179, 169,
    1, 0, 0, 0, 1, 0, 0, 0, 11, 0, 0, 0, 0, 0, 0, 0, 0, 0, 0, 0, 0, 0, 0, 0, 0, 0, 46, 47, 112,
    92, 98, 46, 99, 108, 97, 115, 115, 80, 75, 1, 2, 20, 0, 20, 0, 0, 0, 0, 0, 0, 0, 0, 0, 0, 0,
    0, 0, 0, 0, 0, 0, 0, 0, 0, 0, 2, 0, 0, 0, 0, 0, 0, 0, 0, 0, 0, 0, 0, 0, 42, 0, 0, 0, 112, 47,
    80, 75, 1, 2, 20, 0, 20, 0, 0, 0, 0, 0, 0, 0, 0, 0, 200, 227, 160, 92, 31, 0, 0, 0, 31, 0, 0,
    0, 7, 0, 0, 0, 0, 0, 0, 0, 0, 0, 0, 0, 0, 0, 74, 0, 0, 0, 97, 46, 99, 108, 97, 115, 115, 80,
    75, 5, 6, 0, 0, 0, 0, 3, 0, 3, 0, 158, 0, 0, 0, 142, 0, 0, 0, 0, 0]

def twoFilesArchive : Archive where
  bytes := twoFilesZip
  entries := [
    ⟨"./p\\b.class", 0, false, false, 0xA9B3C423, 1, 1, 0⟩,
    ⟨"p/", 0, false, false, 0, 0, 0, 42⟩,
    ⟨"a.class", 0, false, false, 0x5CA0E3C8, 31, 31, 74⟩]

def inWork (names : List String) : Location := (("work" :: names).map FileTree.name)

/-- The files below `root`, and the archive of them. -/
def twoFilesTree : FileTree :=
  [(["root"], Node.directory), (["root", "p"], .directory), (["root", "a.class"], .file plainClass),
    (["root", "p", "b.class"], .file [0xCA]), (["x.jar"], .file twoFilesZip)].foldl
      (fun tree (names, node) => tree.set (inWork names) node) FileTree.initial

/-- The temporary file is a link to one of the files. -/
def divertedTree : FileTree :=
  twoFilesTree.set (inWork ["out.tmp"]) (.link (.ofString "root/a.class"))

/-- The report on `root` is written beside it. -/
def twoFilesSettings (root : Path) : Settings :=
  ⟨root, .ofString "out", .all, .text, .skipAndContinue, false⟩

theorem areFiles_twoFiles : AreFiles twoFiles where
  ne_nil {f} hf := by
    revert f
    decide
  clean {f} hf := by
    revert f
    decide
  distinct {f g} hf hg := by
    have hall : ∀ f ∈ twoFiles, ∀ g ∈ twoFiles, f.names = g.names → f = g := by decide
    exact hall f hf g hg

/-- What is read from the archive, and what is reported of it from the back, of the files one by one,
and where one of them is written over. -/
theorem outcomes_twoFiles :
    (Archive.entriesOf twoFilesZip = .ok twoFilesArchive.entries ∧
      twoFilesArchive.read "./p\\b.class" = .ok [0xCA] ∧
      twoFilesArchive.read "a.class" = .ok plainClass) ∧
    (Run.value? twoFilesTree (dumpOrdered (fun archive => archive.names.reverse)
        (twoFilesSettings (.ofString "x.jar")) :
          ExceptT Failure (WalkedBy fun tree root => (tree.walk root).map List.reverse) Summary)).any
      (fun summary => summary.candidates == 2 && summary.classes == 1) = true ∧
    (Run.value? twoFilesTree (dump (twoFilesSettings (.ofString "root")))).any
      (fun summary => summary.failed.map FailedEntry.path == ["p/b.class"]) = true ∧
    (Run.value? twoFilesTree (dump (twoFilesSettings (.ofString "x.jar")))).any
      (fun summary => summary.classes == 1) = true ∧
    (Run.value? divertedTree (dump (twoFilesSettings (.ofString "root")))).any
      (fun summary => summary.classes == 0) = true ∧
    (Run.value? divertedTree (dump (twoFilesSettings (.ofString "x.jar")))).any
      (fun summary => summary.classes == 1) = true := by
  decide +kernel

/-- What is found in the archive. -/
theorem read_twoFilesZip :
    Archive.entriesOf twoFilesZip = .ok twoFilesArchive.entries ∧
      twoFilesArchive.read "./p\\b.class" = .ok [0xCA] ∧
      twoFilesArchive.read "a.class" = .ok plainClass := outcomes_twoFiles.1

theorem ofBytes_twoFilesZip : Archive.ofBytes twoFilesZip = .ok twoFilesArchive := by
  rw [Archive.ofBytes, read_twoFilesZip.1]
  rfl

theorem holds_twoFilesArchive : twoFilesArchive.Holds twoFiles := by
  have hb : EntryName.Spells "./p\\b.class" ["p", "b.class"] :=
    ⟨['.', '/'], _, .dotSlash (.inl rfl) .nil, .cons "p" (.inr rfl) (.last "b.class"), by decide⟩
  have ha : EntryName.Spells "a.class" ["a.class"] := ⟨[], _, .nil, .last "a.class", rfl⟩
  obtain ⟨-, hreadb, hreada⟩ := read_twoFilesZip
  have hnames : twoFilesArchive.names = ["./p\\b.class", "p/", "a.class"] := rfl
  refine ⟨fun {stored} hstored hfile => ?_, fun {f} hf => ?_⟩
  · rw [hnames] at hstored
    simp only [List.mem_cons, List.not_mem_nil, or_false] at hstored
    rcases hstored with rfl | rfl | rfl
    · exact ⟨⟨["p", "b.class"], [0xCA]⟩, by decide, hb, hreadb⟩
    · exact absurd hfile (by decide)
    · exact ⟨⟨["a.class"], plainClass⟩, by decide, ha, hreada⟩
  · rw [hnames]
    simp only [twoFiles, List.mem_cons, List.not_mem_nil, or_false] at hf
    rcases hf with rfl | rfl
    · exact ⟨"a.class", by decide, ha⟩
    · exact ⟨"./p\\b.class", by decide, hb⟩

/-- What is found in the tree: below `root`, by the two roots, and where the report is written. -/
theorem look_twoFilesTree :
    ((∀ entry ∈ twoFilesTree.below (inWork ["root"]),
        entry = (inWork ["root"] ++ [FileTree.name "p"], .directory) ∨
        ∃ f ∈ twoFiles, entry.1 = inWork ["root"] ++ f.location ∧ entry.2 = .file f.content) ∧
      (∀ f ∈ twoFiles,
        twoFilesTree.get? (inWork ["root"] ++ f.location) = some (.file f.content)) ∧
      ∀ f ∈ twoFiles, ∀ n < f.location.length, 0 < n →
        twoFilesTree.get? (inWork ["root"] ++ f.location.take n) = some .directory) ∧
    (twoFilesTree.node (.ofString "root") = .ok (inWork ["root"], .directory) ∧
      twoFilesTree.get? (inWork ["root"]) = some .directory ∧
      twoFilesTree.node (.ofString "x.jar") = .ok (inWork ["x.jar"], .file twoFilesZip)) ∧
    (∀ made ∈ (Path.ofString "out").above, (twoFilesTree.makeDirectory made).toOption.isNone) ∧
    (twoFilesTree.create (temporary (.ofString "out"))).toOption.map Prod.fst =
      some (inWork ["out.tmp"]) :=
  ⟨⟨by decide, by decide, by decide⟩, ⟨by decide, by decide, rfl⟩, by decide, by decide⟩

theorem holds_twoFilesTree : twoFilesTree.Holds (inWork ["root"]) twoFiles := by
  obtain ⟨⟨honly, hall, hway⟩, -⟩ := look_twoFilesTree
  exact .of_below (fun entry hentry => (honly entry hentry).imp_left (congrArg Prod.snd)) hall hway

theorem directory_twoFilesTree {rest : Location} (hne : rest ≠ [])
    (hnode : twoFilesTree.get? (inWork ["root"] ++ rest) = some .directory) :
    rest = [FileTree.name "p"] := by
  obtain ⟨⟨honly, -⟩, -⟩ := look_twoFilesTree
  rcases honly (inWork ["root"] ++ rest, .directory)
    (FileTree.mem_below.mpr ⟨rest, hne, rfl, hnode⟩) with hplace | ⟨f, -, -, hfile⟩
  · exact List.append_cancel_left (Prod.mk.inj hplace).1
  · cases hfile

theorem pathsFit_twoFilesTree :
    PathsFit twoFilesTree (.ofString "root") (inWork ["root"]) .all twoFiles where
  directory {rest} hne hdirectory := by
    rw [directory_twoFilesTree hne hdirectory]
    decide
  path {f} hf _ := by
    revert f
    decide
  name {f} hf _ := by
    revert f
    decide

theorem apart_twoFilesTree (places : List Location) (h : inWork ["out.tmp"] ∉ places) :
    Apart twoFilesTree (.ofString "out") places := by
  obtain ⟨-, -, habove, hplace⟩ := look_twoFilesTree
  intro parents opened here hmade hcreate
  obtain rfl := hmade.eq_of_isNone habove
  rw [hcreate] at hplace
  cases hplace
  exact h

/-- The directory `root`, with so many slashes behind it that no path of a file fits. -/
def longRoot : Path := ⟨FileTree.name "root" ++ List.replicate 4089 Path.slash⟩

theorem length_longRoot : longRoot.bytes.length = 4093 := by
  rw [longRoot, List.length_append, List.length_replicate]
  rfl

theorem split_longRoot :
    Path.split longRoot.bytes = FileTree.name "root" :: List.replicate 4089 [] :=
  Path.split_append_replicate (by decide) 4089

theorem node_longRoot_of_root {tree : FileTree} (hworking : tree.working = inWork [])
    (hroot : tree.get? (inWork ["root"]) = some .directory) :
    tree.node longRoot = .ok (inWork ["root"], .directory) := by
  refine FileTree.node_eq_ok.mpr ⟨FileTree.checkPath_eq_ok.mpr ⟨?_, ?_, ?_⟩, ?_⟩
  · rw [longRoot, List.mem_append, List.mem_replicate]
    decide
  · exact List.append_ne_nil_of_left_ne_nil (by decide) _
  · rw [length_longRoot]
    decide
  · rw [split_longRoot, hworking]
    exact .directory (FileTree.isLookedUp_target ⟨by decide, by decide⟩ (by decide)) hroot
      (FileTree.reaches_slashes 4089)

theorem node_longRoot : twoFilesTree.node longRoot = .ok (inWork ["root"], .directory) :=
  node_longRoot_of_root rfl look_twoFilesTree.2.1.2.1

theorem isStandardInput_longRoot : DirectorySource.isStandardInput longRoot = false := by
  have hnames : Path.namesOf (Path.split longRoot.bytes) = [FileTree.name "root"] := by
    have hslashes (count : Nat) : Path.namesOf (List.replicate count []) = [] := by
      simp [Path.namesOf, Path.isIdle]
    rw [split_longRoot, Path.namesOf_cons (by decide), hslashes]
  have hlead : longRoot.leadComponents = [] := by
    have hrelative : longRoot.isAbsolute = false := rfl
    rw [Path.leadComponents, Path.lead, split_longRoot, hrelative]
    decide
  rw [DirectorySource.isStandardInput, Path.components_eq, hnames, hlead]
  decide

/-- The directory `p` can still be listed by its path. -/
theorem length_le_longRoot {rest : Location} (hne : rest ≠ [])
    (hnode : twoFilesTree.get? (inWork ["root"] ++ rest) = some .directory) :
    (longRoot.descend rest).bytes.length ≤ FileTree.longestPath := by
  rw [directory_twoFilesTree hne hnode]
  have hproper : ∀ name ∈ [FileTree.name "p"], Path.IsProper name := by decide
  refine (Path.length_descend (FileTree.ne_nil_of_node node_longRoot) hproper).2.trans ?_
  rw [length_longRoot]
  decide

theorem longestPath_lt_longRoot {f : NamedFile} (hf : f ∈ twoFiles) :
    FileTree.longestPath < (f.path longRoot).bytes.length := by
  have hne := FileTree.ne_nil_of_node node_longRoot
  have hlength := (Path.length_descend hne (areFiles_twoFiles.isProper hf)).1
  have hnames : ∀ f ∈ twoFiles, 3 ≤ (f.location.map List.length).sum := by decide
  have hlongest : FileTree.longestPath = 4095 := rfl
  rw [length_longRoot] at hlength
  rw [NamedFile.path, hlongest]
  exact Nat.lt_of_lt_of_le (Nat.add_lt_add_left (hnames f hf) 4093) hlength

def longSettings : Settings :=
  ⟨longRoot, .ofString "out", .all, .text, .skipAndContinue, false⟩

/-- The run with the long root leaves the two files out of its report. -/
theorem dump_longSettings :
    ∃ (summary : Summary) (after : FileTree), summary.classes = 0 ∧
      EndsWith (dump longSettings : ExceptT Failure World Summary).run ((), twoFilesTree)
        (.ok summary) ((), after) := by
  let failing : List (Candidate (WalkedBy FileTree.walk)) := ["a.class", "p/b.class"].map fun key =>
    ⟨key, throw (.unreadable key (.file .nameTooLong))⟩
  obtain ⟨summary, after, hclasses, hends⟩ : ∃ (summary : Summary) (after : FileTree),
      summary.classes = 0 ∧ EndsWith (makeReport longSettings failing).run ((), twoFilesTree)
        (.ok summary) ((), after) := by
    have hany : (Run.value? twoFilesTree (makeReport longSettings failing)).any
        (fun summary => summary.classes == 0) = true := by decide
    obtain ⟨summary, hclasses, hends⟩ := Run.exists_endsWith_of_any hany
    exact ⟨summary, _, beq_iff_eq.mp hclasses, hends⟩
  obtain ⟨found, hwalked, hfound⟩ :=
    holds_twoFilesTree.exists_walk node_longRoot areFiles_twoFiles fun _ => length_le_longRoot
  have hkeys : ((DirectorySource.ofRoot longRoot).select .all found).listed.keys =
      ["a.class", "p/b.class"] := by
    have hlisted : ((ArchiveSource.mk longRoot twoFilesArchive ∅).listIn Archive.names .all).1 =
        ["a.class", "p/b.class"] := by decide
    rw [keys_select_eq areFiles_twoFiles (FileTree.ne_nil_of_node node_longRoot) hfound
      holds_twoFilesArchive (fun _ => Iff.rfl) longRoot, hlisted]
  have hreport := exec_makeReport_long areFiles_twoFiles node_longRoot hfound FileTree.walk
    longSettings fun f hf => longestPath_lt_longRoot hf
  have hdirectory := exec_dumpDirectory longSettings isStandardInput_longRoot hwalked
  have hroot : longSettings.root = longRoot := rfl
  have hfilter : longSettings.filter = .all := rfl
  dsimp only at hreport hdirectory
  rw [hfilter, hkeys] at hreport
  rw [hroot, hfilter, hkeys, hreport, hends] at hdirectory
  have hdetect : EndsWith (detectRoot longSettings.root :
      ExceptT Failure (WalkedBy FileTree.walk) _).run ((), twoFilesTree) (.ok .directory)
      ((), twoFilesTree) := endsWith_detectRoot (FileTree.kind_of_node node_longRoot)
  have hdump : EndsWith (dumpOrdered Archive.names longSettings :
      ExceptT Failure (WalkedBy FileTree.walk) _).run ((), twoFilesTree)
      (.ok { summary with durationMs := 0 }) ((), after) := endsWith_dumpOrdered hdetect hdirectory
  rw [dumpOrdered_eq_dump] at hdump
  exact ⟨{ summary with durationMs := 0 }, after, hclasses, hdump⟩

end Dump

end JvmSymbols
