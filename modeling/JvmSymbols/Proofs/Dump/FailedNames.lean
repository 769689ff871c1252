import JvmSymbols.Proofs.Dump.Noting
import JvmSymbols.Proofs.Dump.SameFiles

/-!
# What failed files are called

A run that leaves failures out lists each of them under what it is about (`failed_paths`). That is
the name of the candidate, except for an entry that cannot be opened: such a failure is about the
archive, and is listed under the path of the entry below the archive.
-/

namespace JvmSymbols

open Archive (Abort)
open Dump (Failure)

namespace Dump

/-! ## Results -/

/-- The candidate is an entry that could not be opened. -/
def Pending.isRefused : Pending → Bool
  | (_, .error (.unopenable ..)) => true
  | _ => false

/-- Under which path a candidate of the root is listed if it fails. -/
def Pending.pathIn (root : Path) (pending : Pending) : String :=
  if pending.isRefused then (root.join (.ofString pending.1)).display else pending.1

/-- A failure to read the candidate is about what it is listed under. -/
structure Attributed (root : Path) (kind : RootKind) (name : String)
    (r : Except Failure Bytes) : Prop where
  subject : ∀ failure, r = .error failure → failure.subject = Pending.pathIn root (name, r)
  directory : kind = .directory → Pending.isRefused (name, r) = false

theorem subject_of_parse_error {root : Path} {kind : RootKind} {pending : Pending}
    {failure : Failure} (h : Attributed root kind pending.1 pending.2)
    (hparse : pending.parse = .error failure) : failure.subject = pending.pathIn root := by
  obtain ⟨name, r⟩ := pending
  cases r with
  | error cause =>
    obtain rfl : cause = failure := Except.error.inj hparse
    exact h.subject cause rfl
  | ok bytes =>
    have hsymbols : symbolsOf name bytes = .error failure := hparse
    rcases hbytes : ClassFile.Descriptor.ofBytes bytes with fault | d <;>
      rw [symbolsOf, hbytes] at hsymbols <;> cases hsymbols
    rfl

theorem failures_subjects {root : Path} {kind : RootKind} {results : List Pending}
    (h : ∀ pending ∈ results, Attributed root kind pending.1 pending.2) :
    (failures (results.map Pending.parse)).map Failure.subject =
      (results.filter Pending.fails).map (Pending.pathIn root) := by
  induction results with
  | nil => rfl
  | cons pending results ih =>
    obtain ⟨hpending, hresults⟩ := List.forall_mem_cons.mp h
    rw [List.map_cons, failures, List.filterMap_cons, ← failures, List.filter_cons, Pending.fails]
    rcases hparse : pending.parse with failure | symbols
    · dsimp only
      rw [if_pos rfl, List.map_cons, List.map_cons, ih hresults,
        subject_of_parse_error hpending hparse]
    · dsimp only
      rw [if_neg Bool.false_ne_true, ih hresults]

/-! ## Candidates -/

theorem map_fst_of_gave {Gives : String → Except Failure Bytes → Prop}
    {m : Type → Type} {candidates : List (Candidate m)} {results : List Pending}
    (h : List.Forall₂ (Gave Gives) candidates results) :
    results.map Prod.fst = candidates.map Candidate.name := by
  induction h with
  | nil => rfl
  | cons hgave _ ih => rw [List.map_cons, List.map_cons, hgave.1, ih]

theorem forall_of_gave {Gives : String → Except Failure Bytes → Prop}
    {m : Type → Type} {candidates : List (Candidate m)} {results : List Pending}
    (h : List.Forall₂ (Gave Gives) candidates results) :
    ∀ pending ∈ results, Gives pending.1 pending.2 := by
  induction h with
  | nil => exact nofun
  | cons hgave _ ih => exact List.forall_mem_cons.mpr ⟨hgave.1 ▸ hgave.2, ih⟩

section
variable {m : Type → Type} [Monad m] [MonadExceptOf Abort m] {own σ : Type} [RunsOver own σ m]

theorem attributed_outcome {source : ArchiveSource} {key : String} {result : Except Failure Bytes}
    (h : source.outcome key = .ok result) : Attributed source.path .archive key result := by
  refine ⟨?_, nofun⟩
  rintro failure rfl
  rw [ArchiveSource.outcome] at h
  split at h <;> cases h <;> rfl

theorem answers_archive (source : ArchiveSource) (keys : List String) :
    ∀ c ∈ (source.candidates keys : List (Candidate m)),
      Answers (Attributed source.path .archive) c := by
  intro c hc s
  obtain ⟨key, -, rfl⟩ := List.mem_map.mp hc
  rw [ArchiveSource.read, ExceptT.run_mk]
  split
  · rename_i houtcome
    exact ends_pure.mpr (attributed_outcome houtcome)
  · exact ends_throw.mpr trivial

variable [FileSystem m]

theorem answers_directory [LawfulMonad m] (root : Path) (source : DirectorySource)
    (keys : List String) :
    ∀ c ∈ (source.candidates keys : List (Candidate m)),
      Answers (Attributed root .directory) c := by
  intro c hc s
  obtain ⟨key, -, rfl⟩ := List.mem_map.mp hc
  refine ends_run_adapt.mpr ((ends_anyhow _ s).mono fun r _ _ => ?_)
  cases r with
  | error fault =>
    refine ⟨fun failure hfailure => ?_, fun _ => rfl⟩
    cases hfailure
    rfl
  | ok bytes => exact ⟨nofun, fun _ => rfl⟩

theorem ends_list_keys (source : DirectorySource) (filter : Filter) (s : own × σ) :
    Ends (source.list filter : m _) s (fun r _ => ∀ keys, r.1 = .ok keys → keys.Pairwise (· < ·))
      fun _ => True := by
  unfold DirectorySource.list
  split
  · refine ends_pure.mpr fun keys hkeys => ?_
    cases hkeys
    exact .nil
  · refine ends_bind.mpr ((ends_anyhow _ s).mono fun r _ _ => ?_)
    cases r with
    | error fault => exact ends_pure.mpr nofun
    | ok found =>
      refine ends_pure.mpr fun keys hkeys => ?_
      cases hkeys
      exact Listing.pairwise_keys _

/-- The candidates of a root stand in the order of their names. -/
def Orderly (settings : Settings) (kind : RootKind) (candidates : List (Candidate m)) : Prop :=
  (candidates.map Candidate.name).Pairwise (· < ·) ∧
    ∀ c ∈ candidates, Answers (Attributed settings.root kind) c

variable [LawfulMonad m]

theorem ends_noteRoot (settings : Settings) (s : own × σ) :
    Ends (noteRoot settings : ExceptT Failure m _).run s
      (fun r _ => ∀ kind candidates, r = .ok (kind, candidates) → Orderly settings kind candidates)
      fun _ => True := by
  refine ends_run_bind.mpr ((ends_anyhow _ s).mono fun r s₁ _ => ?_)
  rcases r with failure | _ | _
  · exact nofun
  · refine ends_run_bind.mpr (ends_run_lift.mpr ?_)
    refine (ends_list_keys _ settings.filter s₁).mono fun r s₂ hkeys => ?_
    obtain ⟨r, source⟩ := r
    refine ends_run_bind.mpr (ends_pure.mpr ?_)
    cases r with
    | error failure => exact nofun
    | ok keys =>
      refine ends_run_pure.mpr fun kind candidates hlisted => ?_
      cases hlisted
      refine ⟨?_, answers_directory settings.root source keys⟩
      rw [DirectorySource.candidates, List.map_map]
      exact (List.map_id keys).symm ▸ hkeys keys rfl
  · refine ends_run_bind.mpr ((ends_anyhow _ s₁).mono fun r s₂ _ => ?_)
    cases r with
    | error failure => exact nofun
    | ok bytes =>
      refine ends_run_bind.mpr (ends_pure.mpr ?_)
      rw [ArchiveSource.open?]
      rcases (Archive.ofBytes bytes).mapError (Failure.unopenable settings.root) with
        failure | archive
      · exact nofun
      · refine ends_run_pure.mpr fun kind candidates hlisted => ?_
        cases hlisted
        refine ⟨?_, answers_archive _ _⟩
        rw [ArchiveSource.candidates, List.map_map]
        exact (List.map_id _).symm ▸ Listing.pairwise_keys _

/-! ## Dumps -/

/-- What a dump that leaves failures out notes, and how its summary goes with that. -/
structure Told (settings : Settings) (summary : Summary) (notes : Notes) : Prop where
  listed : notes.listed.Pairwise (· < ·)
  names : notes.results.map Prod.fst = notes.listed
  failed : summary.failed.map FailedEntry.path =
    (notes.results.filter Pending.fails).map (Pending.pathIn settings.root)
  directory : notes.root = .directory →
    ∀ pending ∈ notes.results, pending.isRefused = false

theorem ends_noteDump (hskip : settings.policy = .skipAndContinue) (s : own × σ) :
    Ends (noteDump settings : ExceptT Failure m _).run s
      (fun r _ => ∀ summary notes, r = .ok (summary, notes) → Told settings summary notes)
      fun _ => True := by
  refine ends_run_bind.mpr (ends_run_lift.mpr ((ends_anyhow _ s).mono fun start s₁ _ => ?_))
  refine ends_run_bind.mpr ((ends_noteRoot settings s₁).mono fun r s₂ hroot => ?_)
  rcases r with failure | ⟨kind, candidates⟩
  · exact nofun
  obtain ⟨hlisted, hanswers⟩ := hroot kind candidates rfl
  refine ends_run_bind.mpr ((ends_noteReport hanswers s₂).mono fun r s₃ hreport => ?_)
  rcases r with failure | ⟨summary, results⟩
  · exact nofun
  obtain ⟨tally, digest, rfl, hgave, hfold⟩ := hreport summary results rfl
  have hattributed : ∀ pending ∈ results, Attributed settings.root kind pending.1 pending.2 :=
    forall_of_gave hgave
  refine ends_run_bind.mpr (ends_run_lift.mpr ((ends_anyhow _ s₃).mono fun stop s₄ _ => ?_))
  refine ends_run_pure.mpr fun summary notes hnotes => ?_
  cases hnotes
  refine ⟨hlisted, map_fst_of_gave hgave, ?_, fun hkind pending hpending =>
    (hattributed pending hpending).directory hkind⟩
  rw [hskip, foldlM_step_skip] at hfold
  obtain rfl := Except.ok.inj hfold
  rw [← failures_subjects hattributed]
  exact List.map_map

/-- A dump that leaves failures out names, in their order, just the candidates that could not be
read or parsed: an entry that could not be opened by its path below the archive, all others by the
names under which they are listed. So if no entry is refused, as in a directory, the failed paths are some
of the listed names, in strictly ascending order. -/
theorem failed_paths (settings : Settings) (hskip : settings.policy = .skipAndContinue) :
    Prod.fst <$> noteDump settings = (dump settings : ExceptT Failure m Summary) ∧
    ∀ (s s' : own × σ) (summary : Summary),
      EndsWith (dump settings : ExceptT Failure m Summary).run s (.ok summary) s' →
      ∃ notes, EndsWith (noteDump settings : ExceptT Failure m _).run s (.ok (summary, notes)) s' ∧
        notes.listed.Pairwise (· < ·) ∧ notes.results.map Prod.fst = notes.listed ∧
        summary.failed.map FailedEntry.path =
          (notes.results.filter Pending.fails).map (Pending.pathIn settings.root) ∧
        (notes.root = .directory → ∀ pending ∈ notes.results, pending.isRefused = false) ∧
        ((∀ pending ∈ notes.results, pending.isRefused = false) →
          summary.failed.map FailedEntry.path =
            (notes.results.filter Pending.fails).map Prod.fst ∧
          (summary.failed.map FailedEntry.path).Sublist notes.listed ∧
          (summary.failed.map FailedEntry.path).Pairwise (· < ·)) := by
  refine ⟨fst_map_noteDump settings, fun s s' summary h => ?_⟩
  rw [← fst_map_noteDump, map_eq_pure_bind] at h
  obtain ⟨⟨summary', notes⟩, s₁, hnoted, hsummary⟩ := endsWith_run_bind_ok.mp h
  obtain ⟨rfl, rfl⟩ := endsWith_run_pure_ok.mp hsummary
  have htold : Told settings summary' notes :=
    (ends_noteDump hskip s).of_endsWith hnoted summary' notes rfl
  refine ⟨notes, hnoted, htold.listed, htold.names, htold.failed, htold.directory, fun hopen => ?_⟩
  have hnamed : summary'.failed.map FailedEntry.path =
      (notes.results.filter Pending.fails).map Prod.fst := by
    rw [htold.failed]
    refine List.map_congr_left fun pending hpending => ?_
    rw [Pending.pathIn, hopen pending (List.mem_of_mem_filter hpending),
      if_neg Bool.false_ne_true]
  have hsublist : (summary'.failed.map FailedEntry.path).Sublist notes.listed := by
    rw [hnamed, ← htold.names]
    exact List.filter_sublist.map Prod.fst
  exact ⟨hnamed, hsublist, htold.listed.sublist hsublist⟩

end

/-- A directory with a class file and one that is cut off. -/
theorem failed_paths_two_files :
    let settings : Settings :=
      ⟨.ofString "root", .ofString "out", .all, .text, .skipAndContinue, false⟩
    let run := (dump settings : ExceptT Failure World Summary).run
    settings.policy = .skipAndContinue ∧
      ∃ summary after, EndsWith run ((), twoFilesTree) (.ok summary) ((), after) ∧
        summary.failed.map FailedEntry.path = ["p/b.class"] ∧
        ∃ notes, EndsWith (noteDump settings : ExceptT Failure World _).run ((), twoFilesTree)
            (.ok (summary, notes)) ((), after) ∧
          (notes.results.filter Pending.fails).map (Pending.pathIn settings.root) =
            ["p/b.class"] := by
  intro settings run
  obtain ⟨-, -, hany, -⟩ := outcomes_twoFiles
  obtain ⟨summary, hpaths, hends⟩ := Run.exists_endsWith_of_any hany
  rw [beq_iff_eq] at hpaths
  obtain ⟨notes, hnoted, -, -, hfailed, -⟩ := (failed_paths settings rfl).2 _ _ summary hends
  exact ⟨rfl, summary, _, hends, hpaths, notes, hnoted, hfailed ▸ hpaths⟩

/-- An archive of the entries `a.class`, which is encrypted, `b.class`, which is packed in a way
that is not known, and `x.jar/a.class`, which is no class file. -/
def refusedZip : Bytes :=
    [80, 75, 3, 4, 20, 0, 1, 0, 0, 0, 0, 0, 0, 0, 0, 0, 0, 0, 0, 0, 0, 0, 0, 0, 0, 0, 7, 0, 0, 0,
    97, 46, 99, 108, 97, 115, 115, 80, 75, 3, 4, 20, 0, 0, 0, 12, 0, 0, 0, 0, 0, 0, 0, 0, 0, 0, 0,
    0, 0, 0, 0, 0, 0, 7, 0, 0, 0, 98, 46, 99, 108, 97, 115, 115, 80, 75, 3, 4, 20, 0, 0, 0, 0, 0,
    0, 0, 0, 0, 35, 196, 179, 169, 1, 0, 0, 0, 1, 0, 0, 0, 13, 0, 0, 0, 120, 46, 106, 97, 114, 47,
    97, 46, 99, 108, 97, 115, 115, 202, 80, 75, 1, 2, 20, 0, 20, 0, 1, 0, 0, 0, 0, 0, 0, 0, 0, 0,
    0, 0, 0, 0, 0, 0, 0, 0, 0, 0, 7, 0, 0, 0, 0, 0, 0, 0, 0, 0, 0, 0, 0, 0, 0, 0, 0, 0, 97, 46, 99,
    108, 97, 115, 115, 80, 75, 1, 2, 20, 0, 20, 0, 0, 0, 12, 0, 0, 0, 0, 0, 0, 0, 0, 0, 0, 0, 0, 0,
    0, 0, 0, 0, 7, 0, 0, 0, 0, 0, 0, 0, 0, 0, 0, 0, 0, 0, 37, 0, 0, 0, 98, 46, 99, 108, 97, 115,
    115, 80, 75, 1, 2, 20, 0, 20, 0, 0, 0, 0, 0, 0, 0, 0, 0, 35, 196, 179, 169, 1, 0, 0, 0, 1, 0,
    0, 0, 13, 0, 0, 0, 0, 0, 0, 0, 0, 0, 0, 0, 0, 0, 74, 0, 0, 0, 120, 46, 106, 97, 114, 47, 97,
    46, 99, 108, 97, 115, 115, 80, 75, 5, 6, 0, 0, 0, 0, 3, 0, 3, 0, 165, 0, 0, 0, 118, 0, 0, 0, 0,
    0]

/-- All three fail. The two that are refused are listed by their paths below the archive, and the
path of the first is the name of the third. -/
theorem failed_paths_refused :
    let settings : Settings :=
      ⟨.ofString "x.jar", .ofString "out", .all, .text, .skipAndContinue, false⟩
    let tree := workingTree [("x.jar", .file refusedZip)]
    ∃ summary notes after,
      EndsWith (dump settings : ExceptT Failure World Summary).run ((), tree) (.ok summary)
        ((), after) ∧
      EndsWith (noteDump settings : ExceptT Failure World _).run ((), tree) (.ok (summary, notes))
        ((), after) ∧
      notes.listed = ["a.class", "b.class", "x.jar/a.class"] ∧
      (notes.results.filter Pending.fails).map Prod.fst = notes.listed ∧
      summary.failed.map FailedEntry.path = ["x.jar/a.class", "x.jar/b.class", "x.jar/a.class"] ∧
      ¬ summary.failed.map FailedEntry.path =
        (notes.results.filter Pending.fails).map Prod.fst ∧
      ¬ (summary.failed.map FailedEntry.path).Pairwise (· < ·) ∧
      ¬ (summary.failed.map FailedEntry.path).Nodup ∧
      ¬ summary.failed.map FailedEntry.path ⊆ notes.listed := by
  intro settings tree
  let run := (noteDump settings : ExceptT Failure World _).run
  have hany : ((Run.value? tree (noteDump settings)).any fun (summary, notes) =>
      notes.listed == ["a.class", "b.class", "x.jar/a.class"] &&
        (notes.results.filter Pending.fails).map Prod.fst ==
          ["a.class", "b.class", "x.jar/a.class"] &&
        summary.failed.map FailedEntry.path ==
          ["x.jar/a.class", "x.jar/b.class", "x.jar/a.class"]) = true := by
    decide +kernel
  obtain ⟨⟨summary, notes⟩, hnoted, hends⟩ := Run.exists_endsWith_of_any hany
  simp only [Bool.and_eq_true, beq_iff_eq] at hnoted
  obtain ⟨⟨hlisted, hfails⟩, hpaths⟩ := hnoted
  have hdump : EndsWith (dump settings : ExceptT Failure World Summary).run ((), tree)
      (.ok summary) ((), (Run.on tree run).2) := by
    rw [← fst_map_noteDump]
    exact hends.map
  refine ⟨summary, notes, _, hdump, hends, hlisted, hfails.trans hlisted.symm, hpaths, ?_⟩
  rw [hpaths, hfails, hlisted]
  decide

end Dump

end JvmSymbols
