import JvmSymbols.Proofs.Dump.Failing

/-!
# What a failed dump leaves at the temporary file

A dump that fails removes the temporary file, if it has opened it, except where the report cannot be
moved to the output: then the temporary file stays (`dump_error_temporary`).
-/

namespace JvmSymbols

open CarriesTree (tree)
open FileSystem (Fault)
open FileTree (Appended IsPlain Leads Made)

namespace Dump

variable {output : Path} {parents opened filled : FileTree} {here : Location} {held : Bytes}

/-- Something that can be removed stands at the temporary file. -/
theorem exists_removable (hcreate : parents.create (temporary output) = .ok (here, opened))
    (hheld : Appended here held opened filled) :
    filled.object? (temporary output) ≠ none ∧
      ∃ cleared, filled.remove (temporary output) = .ok cleared ∧
        cleared.object? (temporary output) = none := by
  obtain ⟨front, last, hsplit⟩ := Path.exists_split output.bytes
  have htemporary := split_temporary hsplit
  have hplain := isPlain_temporary last
  obtain ⟨hcheck, hlength, directory, node, hleads, hnode, hdirectory⟩ :=
    FileTree.exists_stands hcreate hheld htemporary hplain
  refine ⟨?_, _, FileTree.remove_of_leads hcheck htemporary hplain hlength hleads hnode hdirectory,
    FileTree.object?_erase hcheck htemporary hplain hlength hleads⟩
  rw [FileTree.object?_of_leads hcheck htemporary hleads, FileTree.held?_plain hplain hlength, hnode]
  exact nofun

variable {m : Type → Type} [Monad m] [LawfulMonad m] [MonadExceptOf Archive.Abort m] {own σ : Type}
  [RunsOver own σ m] [FileSystem m] [CarriesTree own σ m]

/-- A dump that fails before it opens the temporary file has made directories above the output, and
leaves what stands at that file, unless the way to it has a `..` behind a missing part. A dump that
fails later removes the file, if it can be removed, but for one case: if the report cannot be moved
to the output, the file is left. -/
theorem dump_error_temporary (settings : Settings) {s s' : own × σ} {failure : Failure}
    {listing : ExceptT Failure m (List (Candidate m))}
    (hlisting : Lists listing s fun candidates => ∀ c ∈ candidates, Quiet Anything c)
    (h : EndsWith (dumpSource settings listing).run s (.error failure) s') :
    let path := temporary settings.output
    let before := tree m s.2
    let after := tree m s'.2
    (Made settings.output.above before after ∧
        (before.Closed → (before.object? path = none → before.Approachable path) →
          after.object? path = before.object? path)) ∨
      after.object? path = none ∨
      (after.object? path ≠ none ∧ ∃ s₁ fault, failure = .unwritable settings.output fault ∧
        EndsWith (FileSystem.rename path settings.output : ExceptT Fault m Unit).run s₁
          (.error fault) s') ∨
      ∃ s₁ fault cleared, (tree m s₁.2).remove path = .ok cleared ∧
        EndsWith (FileSystem.remove path : ExceptT Fault m Unit).run s₁ (.error fault) s' := by
  intro path before after
  have habandoned : Abandoned m settings.output before failure s' :=
    (ends_dumpSource_of_quiet hlisting).of_endsWith h
  cases habandoned with
  | unopened hmade =>
    refine .inl ⟨hmade, fun hclosed hnew => ?_⟩
    exact hmade.object?_eq hclosed (FileTree.approachable_of_new hnew) fun _ hmem hne =>
      under_temporary (Path.exists_namesOf_of_mem_above hmem hne)
  | cleared _ hcreate hheld hremove =>
    obtain ⟨-, cleared, hcleared, hnone⟩ := exists_removable hcreate hheld
    cases hremove.symm.trans hcleared
    exact .inr (.inl hnone)
  | uncleared _ hcreate hheld _ hends =>
    obtain ⟨-, cleared, hcleared, -⟩ := exists_removable hcreate hheld
    exact .inr (.inr (.inr ⟨_, _, cleared, hcleared, hends⟩))
  | unpublished _ hcreate hheld hends hfailure =>
    obtain ⟨hleft, -⟩ := exists_removable hcreate hheld
    exact .inr (.inr (.inl ⟨hleft, _, _, hfailure, hends⟩))

/-- What was written of the report is removed when a candidate cannot be read. -/
theorem dump_broken_off_removes_temporary :
    let run := (dumpSource (settingsFor "out") (pure brokenOff)).run
    let after : Unit × FileTree := ((), (Run.on FileTree.initial run).2)
    let failure := Failure.unreadable "b.class" (.file .noEntry)
    EndsWith run ((), FileTree.initial) (.error failure) after ∧
      after.2.object? (temporary (.ofString "out")) = none := by
  intro run after failure
  have hlisting : Lists (pure brokenOff : ExceptT Failure World _) ((), FileTree.initial)
      fun candidates => ∀ c ∈ candidates, Quiet Anything c := by
    refine ends_run_pure.mpr ⟨rfl, fun listed hlisted => ?_⟩
    cases hlisted
    exact fun c hc => (quiet_memory bareSource _ c hc).imp fun _ _ _ => trivial
  obtain ⟨-, -, hfails, -⟩ := outcomes_of_failing
  have hends : EndsWith run ((), FileTree.initial) (.error failure) after := Run.endsWith hfails
  refine ⟨hends, ?_⟩
  rcases dump_error_temporary (settingsFor "out") hlisting hends with
    ⟨-, hsame⟩ | hnone | ⟨-, _, _, hfailure, -⟩ | ⟨s₁, fault, cleared, hcleared, hremove⟩
  · have hnone : FileTree.initial.object? (temporary (.ofString "out")) = none := by decide
    refine (hsame FileTree.closed_initial fun _ => ?_).trans hnone
    exact ⟨[], [FileTree.name "out.tmp"], [FileTree.name "work"], rfl, by decide, rfl⟩
  · exact hnone
  · exact nomatch hfailure
  · exact nomatch (hremove.unique (FileTree.endsWith_change hcleared)).1

/-- A report that cannot be moved to the output is left at the temporary file. -/
theorem dump_occupied_leaves_temporary :
    let run := (dumpSource (settingsFor "out") (pure (bareSource.candidates ["a.class"]))).run
    let after : Unit × FileTree := ((), (Run.on occupiedTree run).2)
    EndsWith run ((), occupiedTree) (.error (.unwritable (.ofString "out") .isDirectory)) after ∧
      occupiedTree.object? (temporary (.ofString "out")) = none ∧
      after.2.object? (temporary (.ofString "out")) = some (.file (Utf8.encode "class: a\n")) := by
  obtain ⟨-, -, -, hends, hleft⟩ := outcomes_of_failing
  exact ⟨Run.endsWith hends, by decide, hleft⟩

end Dump

end JvmSymbols
