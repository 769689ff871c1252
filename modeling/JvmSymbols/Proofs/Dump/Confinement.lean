import JvmSymbols.Proofs.Dump.Publishing

/-!
# Where a dump writes

However a dump ends, it has changed nothing but the places of the output and of the temporary file
and made directories above them (`dump_confined`), unless a link stands at the temporary file: then
the file that it leads to is written.
-/

namespace JvmSymbols

open CarriesTree (tree)
open FileSystem (Fault)
open FileTree (Appended IsPlain Leads Made SameBut startOf)

namespace FileTree

variable {tree tree' : FileTree} {here place : Location} {path : Path} {slash : Bool}

/-- What is made is a directory that was missing, and one of the paths leads to it. -/
theorem Made.of_get?_ne {paths : List Path} (h : Made paths tree tree')
    (hplace : tree'.get? place ≠ tree.get? place) :
    tree.get? place = none ∧ tree'.get? place = some .directory ∧
      ∃ path ∈ paths, Leads tree' (startOf path tree'.working) (Path.split path.bytes) place := by
  induction h with
  | refl => exact absurd rfl hplace
  | tail hfront hstep ih =>
    obtain ⟨made, hmem, hmade⟩ := hstep
    obtain ⟨-, directory, last, hmakes⟩ := exists_makes hmade
    by_cases hnew : directory ++ [last] = place
    · subst hnew
      refine ⟨?_, ?_, made, hmem, ?_⟩
      · by_contra hne
        exact hne ((Made.get?_eq hfront hne).symm.trans hmakes.missing)
      · rw [hmakes.get?, if_pos rfl]
      · rw [hmakes.working, ← Leads.namesOf_iff]
        exact hmakes.leads_made
    · rw [hmakes.get?, if_neg hnew] at hplace ⊢
      obtain ⟨hnone, hdirectory, above, habove, hleads⟩ := ih hplace
      refine ⟨hnone, hdirectory, above, habove, ?_⟩
      rw [hmakes.working]
      exact hleads.ways hmakes.ways

/-- An entry keeps its place while a file is written. -/
theorem SameBut.entry_eq (h : SameBut here tree tree')
    (hentry : tree'.entry path = .ok (.named place slash)) :
    tree.entry path = .ok (.named place slash) := by
  obtain ⟨front, last, count, directory, hcheck, hsplit, hplain, hlength, hleads, rfl, rfl⟩ :=
    entry_eq_named hentry
  rw [h.working, h.leads_iff] at hleads
  exact entry_of_leads hcheck hsplit hplain hlength hleads

end FileTree

namespace Dump

variable {output : Path} {before parents opened filled after : FileTree} {here : Location}
  {held : Bytes}

/-- The places that a dump writes to. -/
inductive Written (output : Path) (parents : FileTree) : Location → Prop
  | output {place : Location} {slash : Bool} :
    parents.entry output = .ok (.named place slash) → Written output parents place
  | temporary {place : Location} {slash : Bool} :
    parents.entry (temporary output) = .ok (.named place slash) → Written output parents place
  | target {link place : Location} {slash : Bool} {path : Path} {opened : FileTree} :
    parents.entry (temporary output) = .ok (.named link slash) →
      parents.get? link = some (.link path) →
      parents.create (temporary output) = .ok (place, opened) → Written output parents place

/-- First directories are made above the output, then only what a dump writes to is changed. -/
def Confined (output : Path) (before after : FileTree) : Prop :=
  ∃ parents, Made output.above before parents ∧ after.working = before.working ∧
    (∀ place, parents.get? place ≠ before.get? place →
      before.get? place = none ∧ parents.get? place = some .directory ∧
        ∃ path ∈ output.above,
          Leads parents (startOf path parents.working) (Path.split path.bytes) place) ∧
    ∀ place, after.get? place ≠ parents.get? place → Written output parents place

theorem confined_of_made (hmade : Made output.above before parents)
    (hworking : after.working = parents.working)
    (h : ∀ place, after.get? place ≠ parents.get? place → Written output parents place) :
    Confined output before after :=
  ⟨parents, hmade, hworking.trans hmade.ways.2, fun _ => hmade.of_get?_ne, h⟩

/-- The file that is opened is the temporary file, or the one that a link there leads to. -/
theorem written_opened (hcreate : parents.create (temporary output) = .ok (here, opened)) :
    Written output parents here := by
  obtain ⟨front, last, hsplit⟩ := Path.exists_split output.bytes
  have hplain := isPlain_temporary last
  have htemporary := split_temporary hsplit
  obtain ⟨hcheck, hlength, directory, hleads, hplace⟩ :=
    FileTree.place_of_create hcreate htemporary hplain
  have hentry := FileTree.entry_of_split hcheck htemporary hplain hlength hleads
  rcases hplace with rfl | ⟨path, hlink⟩
  · exact .temporary hentry
  · exact .target hentry hlink hcreate

theorem written_filled (hcreate : parents.create (temporary output) = .ok (here, opened))
    (hheld : Appended here held opened filled) {place : Location}
    (hne : filled.get? place ≠ parents.get? place) : Written output parents place := by
  have hsame := (FileTree.opened_of_create hcreate).appended hheld
  by_cases hplace : place = here
  · exact hplace ▸ written_opened hcreate
  · exact absurd (hsame.elsewhere hplace) hne

theorem Unfinished.confined (h : Unfinished output before after) : Confined output before after := by
  cases h with
  | unopened hmade => exact confined_of_made hmade rfl fun _ hne => absurd rfl hne
  | unmoved hmade hcreate hheld =>
    have hsame := (FileTree.opened_of_create hcreate).appended hheld
    exact confined_of_made hmade hsame.working fun _ => written_filled hcreate hheld
  | removed hmade hcreate hheld hremove =>
    have hsame := (FileTree.opened_of_create hcreate).appended hheld
    obtain ⟨removed, slash, hentry, rfl⟩ := FileTree.remove_eq hremove
    refine confined_of_made hmade hsame.working fun place hne => ?_
    by_cases hremoved : removed = place
    · exact .temporary (hremoved ▸ hsame.entry_eq hentry)
    · rw [FileTree.get?_erase, if_neg hremoved] at hne
      exact written_filled hcreate hheld hne

variable {m : Type → Type}

theorem Finished.confined {settings : Settings} {Gives : String → Except Failure Bytes → Prop}
    {candidates : List (Candidate m)} {summary : Summary}
    (h : Finished settings Gives candidates before after summary) :
    Confined settings.output before after := by
  obtain ⟨hmade, hcreate, -, -, -, hheld, hrename⟩ := h
  have hsame := (FileTree.opened_of_create hcreate).appended hheld
  obtain ⟨source, target, node, hsource, htarget, -, -, rfl⟩ := FileTree.rename_eq hrename
  refine confined_of_made hmade hsame.working fun place hne => ?_
  by_cases htargetPlace : target = place
  · exact .output (htargetPlace ▸ hsame.entry_eq htarget)
  by_cases hsourcePlace : source = place
  · exact .temporary (hsourcePlace ▸ hsame.entry_eq hsource)
  · rw [FileTree.get?_moved, if_neg htargetPlace, if_neg hsourcePlace] at hne
    exact written_filled hcreate hheld hne

variable [Monad m] [LawfulMonad m] [MonadExceptOf Archive.Abort m] {own σ : Type} [RunsOver own σ m]
  [FileSystem m] [CarriesTree own σ m]

theorem confined_dumpSource (settings : Settings) {s : own × σ}
    {listing : ExceptT Failure m (List (Candidate m))}
    (hlisting : Lists listing s fun candidates => ∀ c ∈ candidates, Quiet Anything c) :
    Ends (dumpSource settings listing).run s
      (fun _ s' => Confined settings.output (tree m s.2) (tree m s'.2))
      fun s' => Confined settings.output (tree m s.2) (tree m s') := by
  refine (ends_dumpSource_of_quiet hlisting).imp (fun r s' hr => ?_) fun s' hs' => hs'.confined
  cases r with
  | error failure => exact (Abandoned.unfinished hr).confined
  | ok summary =>
    obtain ⟨candidates, -, hfinished⟩ := hr
    exact hfinished.confined

/-- However a dump ends, be it that it is given up, all that stood anywhere before it stands there
afterwards, but for the output, the temporary file and what a link there leads to; all that is new
are these and directories on the way to them. -/
theorem dump_confined (settings : Settings) (s : own × σ) :
    (∀ listing : ExceptT Failure m (List (Candidate m)),
      (Lists listing s fun candidates => ∀ c ∈ candidates, Quiet Anything c) →
      Ends (dumpSource settings listing).run s
        (fun _ s' => Confined settings.output (tree m s.2) (tree m s'.2))
        fun s' => Confined settings.output (tree m s.2) (tree m s')) ∧
    Ends (dump settings : ExceptT Failure m Summary).run s
      (fun _ s' => Confined settings.output (tree m s.2) (tree m s'.2))
      fun s' => Confined settings.output (tree m s.2) (tree m s') := by
  refine ⟨fun listing hlisting => confined_dumpSource settings hlisting, ?_⟩
  rw [dump_eq]
  refine ends_run_bind.mpr (ends_run_lift.mpr ?_)
  refine (CarriesTree.milliseconds s).of_false fun start s₁ hs₁ => ?_
  rw [← hs₁]
  refine ends_run_bind.mpr
    ((confined_dumpSource settings (lists_listRoot settings s₁)).mono fun r s₂ hr => ?_)
  cases r with
  | error failure => exact hr
  | ok summary =>
    refine ends_run_bind.mpr (ends_run_lift.mpr ?_)
    refine (CarriesTree.milliseconds s₂).of_false fun _ s₃ hs₃ => ends_run_pure.mpr ?_
    exact hs₃ ▸ hr

/-- A file of somebody else, and an old temporary file. -/
def sharedTree : FileTree := workingTree [("keep", .file [104, 105]), ("out.tmp", .file [111])]

theorem dump_confined_sharedTree :
    let run := (dumpSource (settingsFor "out") (pure [lost])).run
    let after : Unit × FileTree := ((), (Run.on sharedTree run).2)
    let keep : Location := [FileTree.name "work", FileTree.name "keep"]
    EndsWith run ((), sharedTree) (.error (.unreadable "lost" (.other "gone"))) after ∧
      after.2.get? keep = some (.file [104, 105]) := by
  intro run after keep
  have hlisting : Lists (pure [lost] : ExceptT Failure World _) ((), sharedTree)
      fun candidates => ∀ c ∈ candidates, Quiet Anything c := by
    refine ends_run_pure.mpr ⟨rfl, fun listed hlisted c hc s => ?_⟩
    cases hlisted
    cases List.mem_singleton.mp hc
    exact ends_run_throw.mpr ⟨rfl, trivial⟩
  have hends : EndsWith run ((), sharedTree) (.error (.unreadable "lost" (.other "gone"))) after :=
    Run.endsWith (by decide)
  obtain ⟨hconfined, -⟩ := dump_confined (m := World) (settingsFor "out") ((), sharedTree)
  obtain ⟨parents, hmade, -, -, hwritten⟩ := (hconfined _ hlisting).of_endsWith hends
  obtain rfl : parents = sharedTree := hmade.eq_of_isNone (by decide)
  refine ⟨hends, ?_⟩
  have hkeep : sharedTree.get? keep = some (.file [104, 105]) := by decide
  have hentry : sharedTree.entry (temporary (.ofString "out")) =
      .ok (.named [FileTree.name "work", FileTree.name "out.tmp"] false) := by decide
  by_contra hne
  cases hwritten keep (fun hsame => hne (hsame.trans hkeep)) with
  | output houtput =>
    have hplace : sharedTree.entry (.ofString "out") =
        .ok (.named [FileTree.name "work", FileTree.name "out"] false) := by decide
    obtain ⟨hsame, -⟩ := FileTree.Entry.named.inj (Except.ok.inj (hplace.symm.trans houtput))
    exact absurd hsame (by decide)
  | temporary htemporary =>
    obtain ⟨hsame, -⟩ := FileTree.Entry.named.inj (Except.ok.inj (hentry.symm.trans htemporary))
    exact absurd hsame (by decide)
  | target htemporary hlink _ =>
    cases hentry.symm.trans htemporary
    have hfile : sharedTree.get? [FileTree.name "work", FileTree.name "out.tmp"] =
        some (.file [111]) := by decide
    exact nomatch hfile.symm.trans hlink

/-- A file of somebody else, and a link to it with the name of the temporary file. -/
def trapTree : FileTree :=
  workingTree [("victim", .file [104, 105]), ("out.tmp", .link (.ofString "victim"))]

/-- The report is written to the file that the link leads to. -/
theorem dump_follows_link :
    let run := (dumpSource (settingsFor "out") (pure (bareSource.candidates ["a.class"]))).run
    let after : Unit × FileTree := ((), (Run.on trapTree run).2)
    let victim : Location := [FileTree.name "work", FileTree.name "victim"]
    (∃ summary, EndsWith run ((), trapTree) (.ok summary) after) ∧
      trapTree.entry (.ofString "victim") = .ok (.named victim false) ∧
      trapTree.get? victim = some (.file [104, 105]) ∧
      after.2.get? victim = some (.file (Utf8.encode "class: a\n")) :=
  ⟨Run.exists_endsWith (by decide +kernel), by decide +kernel, by decide +kernel, by decide +kernel⟩

end Dump

end JvmSymbols
