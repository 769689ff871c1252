import JvmSymbols.Proofs.Dump.Stages
import JvmSymbols.Proofs.FileSystem.Machine
import JvmSymbols.Proofs.FileTree.Opening

/-!
# Dumps that fail

A dump that does not get to the end leaves what stands at the output as it was
(`Unfinished.object?_eq`). The temporary file stands in the same directory under another name.
-/

namespace JvmSymbols

open CarriesTree (tree)
open FileTree (IsPlain Leads Under Made)
open JvmSymbols.Path (namesOf namesOf_append)

namespace Dump

variable {output : Path} {front : List Name} {last : Name}

/-! ## The temporary file -/

/-- What the name of the temporary file ends in. -/
def suffix : Name := Utf8.encode ".tmp"

theorem split_temporary (hsplit : Path.split output.bytes = front ++ [last]) :
    Path.split (temporary output).bytes = front ++ [last ++ suffix] :=
  Path.split_append hsplit (by decide)

theorem isPlain_temporary (last : Name) : IsPlain (last ++ suffix) := by
  have hlength : 4 ≤ (last ++ suffix).length := by
    have hsuffix : suffix.length = 4 := by decide
    rw [List.length_append]
    omega
  have hne (part : Name) (hpart : part.length < 4) : last ++ suffix ≠ part := by
    rintro rfl
    omega
  constructor
  · rw [Path.isIdle, Bool.or_eq_false_iff]
    exact ⟨by simpa using hne [] (by decide), by simpa using hne Path.dot (by decide)⟩
  · exact hne Path.dotDot (by decide)

theorem isAbsolute_temporary (output : Path) : (temporary output).isAbsolute = output.isAbsolute := by
  obtain ⟨bytes⟩ := output
  cases bytes with
  | nil => decide
  | cons b bytes => rfl

theorem startOf_temporary (output : Path) (here : Location) :
    FileTree.startOf (temporary output) here = FileTree.startOf output here :=
  FileTree.startOf_eq (isAbsolute_temporary output) here

/-- Directories on the way to the output are on the way to the temporary file. -/
theorem under_temporary {made : Path} (h : Under made output) : Under made (temporary output) := by
  obtain ⟨habsolute, name, names, hnames⟩ := h
  obtain ⟨front, last, hsplit⟩ := Path.exists_split output.bytes
  rw [hsplit, namesOf_append] at hnames
  obtain ⟨rest, hrest⟩ : ∃ rest, namesOf front = namesOf (Path.split made.bytes) ++ rest := by
    by_cases hidle : Path.isIdle last = true
    · rw [Path.namesOf_cons_idle hidle] at hnames
      exact ⟨name :: names, (List.append_nil _).symm.trans hnames⟩
    · rw [Path.namesOf_cons (by simpa using hidle)] at hnames
      have hdrop := congrArg List.dropLast hnames
      rw [List.dropLast_append_of_ne_nil (List.cons_ne_nil name names)] at hdrop
      exact ⟨_, (List.dropLast_concat).symm.trans hdrop⟩
  have hlast : namesOf [last ++ suffix] = [last ++ suffix] :=
    Path.namesOf_cons (isPlain_temporary last).not_isIdle []
  have hne : rest ++ [last ++ suffix] ≠ [] := by simp
  obtain ⟨name', names', hcons⟩ := List.exists_cons_of_ne_nil hne
  refine ⟨habsolute.trans (isAbsolute_temporary output).symm, name', names', ?_⟩
  rw [split_temporary hsplit, namesOf_append, hlast, hrest, List.append_assoc, hcons]

theorem approachable_temporary {tree : FileTree} (h : tree.Approachable output) :
    tree.Approachable (temporary output) := by
  obtain ⟨front, back, directory, hsplit, hback, hleads⟩ := h
  rw [← startOf_temporary] at hleads
  have hdots (last : Name) : Path.dotDot ≠ last ++ suffix := (isPlain_temporary last).ne_dotDot.symm
  rcases List.eq_nil_or_concat back with rfl | ⟨rest, last, rfl⟩
  · rw [List.append_nil] at hsplit
    obtain ⟨first, last, hlast⟩ := Path.exists_split output.bytes
    rw [← hsplit, hlast] at hleads
    obtain ⟨directory', hfirst⟩ := hleads.of_append
    exact ⟨first, [last ++ suffix], directory', split_temporary hlast, by simp [hdots], hfirst⟩
  · rw [List.concat_eq_append] at hsplit hback
    rw [← List.append_assoc] at hsplit
    refine ⟨front, rest ++ [last ++ suffix], directory, ?_, ?_, hleads⟩
    · rw [split_temporary hsplit, List.append_assoc]
    · have hrest : Path.dotDot ∉ rest := fun hmem => hback (List.mem_append_left [last] hmem)
      simp [hrest, hdots]

/-! ## What an unfinished run leaves -/

section
variable {before parents : FileTree} (hclosed : before.Closed)
  (happroach : before.Approachable output)
  (hmade : Made output.above before parents)
include hclosed happroach hmade

theorem object?_output : parents.object? output = before.object? output :=
  hmade.object?_eq hclosed happroach fun _ => Path.exists_namesOf_of_mem_above

theorem object?_temporary : parents.object? (temporary output) = before.object? (temporary output) :=
  hmade.object?_eq hclosed (approachable_temporary happroach) fun _ hmem hne =>
    under_temporary (Path.exists_namesOf_of_mem_above hmem hne)

/-- The temporary file is opened in the directory of the output. -/
structure Beside (output : Path) (front : List Name) (last : Name) (directory : Location)
    (parents opened : FileTree) : Prop where
  split : Path.split output.bytes = front ++ [last]
  check : FileTree.checkPath (temporary output) = .ok ()
  length : (last ++ suffix).length ≤ FileTree.longestName
  leads : Leads parents (FileTree.startOf output parents.working) front directory
  opened : FileTree.Opened (directory ++ [last ++ suffix]) parents opened

theorem exists_beside {opened : FileTree} {here : Location}
    (hlink : ∀ target, before.object? (temporary output) ≠ some (.link target))
    (hcreate : parents.create (temporary output) = .ok (here, opened)) :
    ∃ front last directory, here = directory ++ [last ++ suffix] ∧
      Beside output front last directory parents opened := by
  obtain ⟨front, last, hsplit⟩ := Path.exists_split output.bytes
  rw [← object?_temporary hclosed happroach hmade] at hlink
  obtain ⟨hcheck, hlength, directory, hleads, hhere, hopened⟩ :=
    FileTree.exists_opened hcreate (split_temporary hsplit) (isPlain_temporary last) hlink
  rw [startOf_temporary] at hleads
  exact ⟨front, last, directory, hhere, hsplit, hcheck, hlength, hleads, hhere ▸ hopened⟩

end

/-- No name is that of the temporary file and that of the output. -/
theorem place_ne (directory : Location) (last : Name) :
    directory ++ [last] ≠ directory ++ [last ++ suffix] := by
  intro heq
  have hname := List.cons.inj (List.append_cancel_left heq)
  exact absurd (List.append_right_eq_self.mp hname.1.symm) (by decide)

namespace Beside

variable {directory : Location} {parents opened filled : FileTree}
  (h : Beside output front last directory parents opened)
include h

theorem object?_eq (hsame : FileTree.SameBut (directory ++ [last ++ suffix]) parents filled) :
    filled.object? output = parents.object? output := by
  refine hsame.object?_eq h.split fun _ directory' hleads => ?_
  rw [hleads.unique h.leads]
  exact place_ne directory last

/-- The temporary file is found where it was opened. -/
theorem entry_temporary (hsame : FileTree.SameBut (directory ++ [last ++ suffix]) parents filled) :
    filled.entry (temporary output) = .ok (.named (directory ++ [last ++ suffix]) false) := by
  apply FileTree.entry_of_split h.check (split_temporary h.split) (isPlain_temporary last) h.length
  rw [startOf_temporary, hsame.working, hsame.leads_iff]
  exact h.leads

end Beside

/-- However far an unfinished run got, what stands at the output is what stood there before. -/
theorem Unfinished.object?_eq {before after : FileTree} (h : Unfinished output before after)
    (hclosed : before.Closed) (happroach : before.Approachable output)
    (hlink : ∀ target, before.object? (temporary output) ≠ some (.link target)) :
    after.object? output = before.object? output := by
  cases h with
  | unopened hmade => exact object?_output hclosed happroach hmade
  | unmoved hmade hcreate hheld =>
    obtain ⟨front, last, directory, rfl, hbeside⟩ :=
      exists_beside hclosed happroach hmade hlink hcreate
    rw [hbeside.object?_eq (hbeside.opened.appended hheld), object?_output hclosed happroach hmade]
  | removed hmade hcreate hheld hremove =>
    obtain ⟨front, last, directory, rfl, hbeside⟩ :=
      exists_beside hclosed happroach hmade hlink hcreate
    have hsame := hbeside.opened.appended hheld
    obtain ⟨place, slash, hentry, rfl⟩ := FileTree.remove_eq hremove
    rw [hbeside.entry_temporary hsame] at hentry
    cases hentry
    rw [hbeside.object?_eq hsame.erase, object?_output hclosed happroach hmade]

section
variable {m : Type → Type} [Monad m] [LawfulMonad m] [MonadExceptOf Archive.Abort m] {own σ : Type}
  [RunsOver own σ m] [FileSystem m] [CarriesTree own σ m]

omit [LawfulMonad m] [CarriesTree own σ m] in
theorem dumpSource_of_listing_error (settings : Settings)
    {listing : ExceptT Failure m (List (Candidate m))} {s s' : own × σ} {failure : Failure}
    (h : EndsWith listing.run s (.error failure) s') :
    EndsWith (dumpSource settings listing).run s (.error failure) s' := h.bind_error

omit [CarriesTree own σ m] in
theorem dump_of_listing_error (settings : Settings) {s s₁ s' : own × σ}
    {failure : Failure} {start : Nat}
    (hstart : EndsWith (FileSystem.milliseconds : m Nat) s start s₁)
    (h : EndsWith (listRoot settings : ExceptT Failure m (List (Candidate m))).run s₁
      (.error failure) s') :
    EndsWith (dump settings : ExceptT Failure m Summary).run s (.error failure) s' := by
  rw [dump_eq, ExceptT.run_bind_lift]
  exact hstart.bind (dumpSource_of_listing_error settings h).bind_error

/-- A dump that fails leaves what stands at the output as it was, if no link stands at the temporary
file and the way to the output has no `..` behind a missing part. If listing fails, the whole tree is
left as it was. -/
theorem dump_error_keeps_output (settings : Settings) (s : own × σ) (failure : Failure)
    (listing : ExceptT Failure m (List (Candidate m)))
    (hlisting : Lists listing s fun candidates => ∀ c ∈ candidates, Quiet Anything c) :
    ((tree m s.2).Closed →
      ((tree m s.2).object? settings.output = none → (tree m s.2).Approachable settings.output) →
      (∀ target, (tree m s.2).object? (temporary settings.output) ≠ some (.link target)) → ∀ s',
      EndsWith (dumpSource settings listing).run s (.error failure) s' ∨
        EndsWith (dump settings : ExceptT Failure m Summary).run s (.error failure) s' →
      (tree m s'.2).object? settings.output = (tree m s.2).object? settings.output) ∧
    (∀ s', EndsWith listing.run s (.error failure) s' →
      EndsWith (dumpSource settings listing).run s (.error failure) s' ∧ tree m s'.2 = tree m s.2) ∧
    ∀ start s₁ s', EndsWith (FileSystem.milliseconds : m Nat) s start s₁ →
      EndsWith (listRoot settings : ExceptT Failure m (List (Candidate m))).run s₁
        (.error failure) s' →
      EndsWith (dump settings : ExceptT Failure m Summary).run s (.error failure) s' ∧
        tree m s'.2 = tree m s.2 := by
  refine ⟨fun hclosed hnew hlink s' h => ?_, fun s' h => ?_, fun start s₁ s' hstart h => ?_⟩
  · suffices hleft : Unfinished settings.output (tree m s.2) (tree m s'.2) from
      hleft.object?_eq hclosed (FileTree.approachable_of_new hnew) hlink
    rcases h with h | h
    · exact (unfinished_dumpSource hlisting).of_endsWith h failure rfl
    · exact (unfinished_dump settings s).of_endsWith h failure rfl
  · exact ⟨dumpSource_of_listing_error settings h, (hlisting.of_endsWith h).1⟩
  · refine ⟨dump_of_listing_error settings hstart h, ?_⟩
    rw [((lists_listRoot settings s₁).of_endsWith h).1]
    exact (CarriesTree.milliseconds s).of_endsWith hstart

end

/-! ## Runs that fail -/

/-- A class `a` without members. -/
def bareClass : Bytes :=
  [0xCA, 0xFE, 0xBA, 0xBE, 0, 0, 0, 61, 0, 3, 1, 0, 1, 97, 7, 0, 1, 0, 33, 0, 2, 0, 0, 0, 0, 0, 0, 0,
    0, 0, 0]

/-- A source with one class file. -/
def bareSource : MemorySource := ⟨[⟨"a.class", .ok bareClass⟩], none⟩

/-- The report is to be at `output`, and the first failure ends the run. -/
def settingsFor (output : String) : Settings :=
  ⟨.ofString "root", .ofString output, .all, .text, .failFast, false⟩

/-- A working directory with nodes in it. -/
def workingTree (nodes : List (String × Node)) : FileTree :=
  nodes.foldl (fun tree node => tree.set [FileTree.name "work", FileTree.name node.1] node.2)
    FileTree.initial

/-- A report of an earlier run. -/
def reportedTree : FileTree := workingTree [("out", .file [104, 105])]

/-- A disk that is full after three bytes and lets no file be removed. -/
def fullMachine : Machine := ⟨reportedTree, [none, none, some .noSpace, some .noSpace, some .busy], 3⟩

/-- A directory where the report is to be. -/
def occupiedTree : FileTree := workingTree [("out", .directory)]

/-- A candidate that cannot be read behind one that can. -/
def brokenOff : List (Candidate World) := bareSource.candidates ["a.class", "b.class"]

/-- How the dumps end if the disk is full, if a candidate cannot be read and if a directory stands at
the output, and what is left at the temporary file. -/
theorem outcomes_of_failing :
    let run : Run Machine (Except Failure Summary) :=
      (dumpSource (settingsFor "out") (pure (bareSource.candidates ["a.class"]))).run
    let occupied : World (Except Failure Summary) :=
      (dumpSource (settingsFor "out") (pure (bareSource.candidates ["a.class"]))).run
    (run.on fullMachine).1 = .ok (.error (.unwritable (.ofString "out.tmp") .noSpace)) ∧
      (run.on fullMachine).2.tree.object? (.ofString "out.tmp") =
        some (.file (Utf8.encode "cla")) ∧
      (Run.on FileTree.initial (dumpSource (settingsFor "out") (pure brokenOff)).run).1 =
        .ok (.error (.unreadable "b.class" (.file .noEntry))) ∧
      (Run.on occupiedTree occupied).1 =
        .ok (.error (.unwritable (.ofString "out") .isDirectory)) ∧
      (Run.on occupiedTree occupied).2.object? (temporary (.ofString "out")) =
        some (.file (Utf8.encode "class: a\n")) := by
  -- one evaluation for all, since each has to wait until the kernel has checked what stands above
  decide +kernel

/-- The old report outlives a report that was cut off, of which the temporary file is left. -/
theorem dump_cut_keeps_output :
    let candidates : List (Candidate (Run Machine)) := bareSource.candidates ["a.class"]
    let run := (dumpSource (settingsFor "out") (pure candidates)).run
    let after : Unit × Machine := ((), (run.on fullMachine).2)
    let failure := Failure.unwritable (.ofString "out.tmp") .noSpace
    EndsWith run ((), fullMachine) (.error failure) after ∧
      after.2.tree.object? (.ofString "out.tmp") = some (.file (Utf8.encode "cla")) ∧
      after.2.tree.object? (.ofString "out") = reportedTree.object? (.ofString "out") := by
  intro candidates run after failure
  have hlisting : Lists (pure candidates : ExceptT Failure (Run Machine) _) ((), fullMachine)
      fun candidates => ∀ c ∈ candidates, Quiet Anything c := by
    refine ends_run_pure.mpr ⟨rfl, fun listed hlisted => ?_⟩
    cases hlisted
    exact fun c hc => (quiet_memory bareSource _ c hc).imp fun _ _ _ => trivial
  have hclosed : reportedTree.Closed := FileTree.closed_of_forall rfl rfl (by decide)
  have happroach : reportedTree.Approachable (.ofString "out") :=
    ⟨[], [FileTree.name "out"], [FileTree.name "work"], rfl, by decide, rfl⟩
  have hlink : ∀ target,
      reportedTree.object? (temporary (.ofString "out")) ≠ some (.link target) := by
    have hnone : reportedTree.object? (temporary (.ofString "out")) = none := by decide
    simp [hnone]
  obtain ⟨hfails, hcut, -⟩ := outcomes_of_failing
  have hends : EndsWith run ((), fullMachine) (.error failure) after := Run.endsWith hfails
  obtain ⟨hkept, -⟩ := dump_error_keeps_output (settingsFor "out") ((), fullMachine) _ _ hlisting
  exact ⟨hends, hcut, hkept hclosed (fun _ => happroach) hlink after (.inl hends)⟩

/-- A candidate that cannot be read. -/
def lost : Candidate World := ⟨"lost", throw (.unreadable "lost" (.other "gone"))⟩

/-- A `..` behind a missing directory: the directory is made on the way, and then the output is it. -/
theorem dump_lost_makes_output :
    let run := (dumpSource (settingsFor "x/../x") (pure [lost])).run
    let after : Unit × FileTree := ((), (Run.on FileTree.initial run).2)
    FileTree.initial.object? (temporary (.ofString "x/../x")) = none ∧
      EndsWith run ((), FileTree.initial) (.error (.unreadable "lost" (.other "gone"))) after ∧
      FileTree.initial.object? (.ofString "x/../x") = none ∧
      after.2.object? (.ofString "x/../x") = some .directory :=
  ⟨by decide, Run.endsWith rfl, by decide, rfl⟩

end Dump

end JvmSymbols
