import JvmSymbols.Dump.Tree
import JvmSymbols.Proofs.Dump.Filling
import JvmSymbols.Proofs.FileSystem.CarriesTree
import JvmSymbols.Source.Memory

/-!
# What a dump does to the file tree

A dump lists its candidates and then makes the report (`dump_eq`). The report is made in steps, and
a run that ends early has taken the first ones of them (`Unfinished`).
-/

namespace JvmSymbols

open Archive (Abort)
open CarriesTree (tree)
open Dump (Failure)
open FileSystem (Fault ancestors)
open FileTree (Made Appended)

variable {m : Type → Type} [Monad m] [MonadExceptOf Abort m] {own σ : Type}
  [RunsOver own σ m] [FileSystem m] [CarriesTree own σ m]

/-! ## Making directories -/

namespace FileSystem

theorem ends_orPresent (path : Path) (fault : Fault) (s : own × σ) :
    Ends (orPresent path fault : ExceptT Fault m Unit).run s
      (fun _ s' => tree m s'.2 = tree m s.2) fun _ => False := by
  have hlook : Ends (isDirectory path : ExceptT Fault m Bool).run s
      (fun _ s' => tree m s'.2 = tree m s.2) fun _ => False := by
    refine ends_run_tryCatch.mpr (ends_run_bind.mpr
      ((CarriesTree.kind path s).mono fun r s' hr => ?_))
    cases r with
    | error fault => exact ends_run_pure.mpr hr
    | ok kind => exact ends_run_pure.mpr hr
  refine ends_run_bind.mpr (hlook.mono fun r s' hr => ?_)
  cases r with
  | error fault => exact hr
  | ok present =>
    cases present
    · exact ends_run_throw.mpr hr
    · exact ends_run_pure.mpr hr

theorem ends_makeDirectory {paths : List Path} {path : Path} (hpath : path ∈ paths)
    {before : FileTree} {s : own × σ} (hs : Made paths before (tree m s.2)) :
    Ends (makeDirectory path : ExceptT Fault m Unit).run s
      (fun _ s' => Made paths before (tree m s'.2)) fun _ => False := by
  refine (CarriesTree.makeDirectory path s).mono fun r s' hr => ?_
  cases r with
  | error fault => exact hr ▸ hs
  | ok _ => exact .tail hs ⟨path, hpath, hr⟩

theorem ends_makeWithAncestors {paths list : List Path} (hlist : ∀ path ∈ list, path ∈ paths)
    {before : FileTree} {s : own × σ} (hs : Made paths before (tree m s.2)) :
    Ends (makeWithAncestors list : ExceptT Fault m Unit).run s
      (fun _ s' => Made paths before (tree m s'.2)) fun _ => False := by
  have hpresent (path : Path) (fault : Fault) {s : own × σ} (hs : Made paths before (tree m s.2)) :
      Ends (orPresent path fault : ExceptT Fault m Unit).run s
        (fun _ s' => Made paths before (tree m s'.2)) fun _ => False :=
    (ends_orPresent path fault s).mono fun _ _ hr => hr ▸ hs
  induction list generalizing s with
  | nil => exact ends_run_throw.mpr hs
  | cons path above ih =>
    obtain ⟨hpath, habove⟩ := List.forall_mem_cons.mp hlist
    unfold makeWithAncestors
    split
    · exact ends_run_pure.mpr hs
    refine ends_run_tryCatch.mpr ((ends_makeDirectory hpath hs).mono fun r s' hs' => ?_)
    cases r with
    | ok _ => exact hs'
    | error fault =>
      dsimp only
      split
      · refine ends_run_bind.mpr ((ih habove hs').mono fun r s'' hs'' => ?_)
        cases r with
        | error fault => exact hs''
        | ok _ =>
          refine ends_run_tryCatch.mpr ((ends_makeDirectory hpath hs'').mono fun r s₃ hs₃ => ?_)
          cases r with
          | ok _ => exact hs₃
          | error fault => exact hpresent path fault hs₃
      · exact hpresent path fault hs'

end FileSystem

namespace Dump

variable [LawfulMonad m]

theorem ends_makeParent (output : Path) (s : own × σ) :
    Ends (makeParent output : ExceptT Failure m Unit).run s
      (fun _ s' => Made output.above (tree m s.2) (tree m s'.2)) fun _ => False := by
  rw [makeParent, Path.above]
  rcases output.parent? with _ | parent
  · exact ends_run_pure.mpr .refl
  · dsimp only
    split
    · exact ends_run_pure.mpr .refl
    · have hall (path : Path) (hpath : path ∈ ancestors parent) : path ∈ ancestors parent := hpath
      exact ends_run_adapt.mpr (FileSystem.ends_makeWithAncestors hall .refl)

/-! ## The report -/

/-- What a run leaves that did not get to the end: the directories above the report may be there,
and a temporary file with part of the report. -/
inductive Unfinished (output : Path) (before : FileTree) : FileTree → Prop
  | unopened {after : FileTree} : Made output.above before after → Unfinished output before after
  | unmoved {parents opened after : FileTree} {here : Location} {held : Bytes} :
    Made output.above before parents → parents.create (temporary output) = .ok (here, opened) →
      Appended here held opened after → Unfinished output before after
  | removed {parents opened filled after : FileTree} {here : Location} {held : Bytes} :
    Made output.above before parents → parents.create (temporary output) = .ok (here, opened) →
      Appended here held opened filled → filled.remove (temporary output) = .ok after →
      Unfinished output before after

variable (m) in
/-- How a run ends with a failure: before the temporary file was opened, with that file removed or
with a fault of removing it, or because the report could not be moved to the output. -/
inductive Abandoned (output : Path) (before : FileTree) (failure : Failure) (s : own × σ) : Prop
  | unopened : Made output.above before (tree m s.2) → Abandoned output before failure s
  | cleared {parents opened filled : FileTree} {here : Location} {held : Bytes} :
    Made output.above before parents → parents.create (temporary output) = .ok (here, opened) →
      Appended here held opened filled → filled.remove (temporary output) = .ok (tree m s.2) →
      Abandoned output before failure s
  | uncleared {parents opened : FileTree} {here : Location} {held : Bytes} {s₁ : own × σ}
    {fault : Fault} :
    Made output.above before parents → parents.create (temporary output) = .ok (here, opened) →
      Appended here held opened (tree m s₁.2) → tree m s.2 = tree m s₁.2 →
      EndsWith (FileSystem.remove (temporary output) : ExceptT Fault m Unit).run s₁
        (.error fault) s → Abandoned output before failure s
  | unpublished {parents opened : FileTree} {here : Location} {held : Bytes} {s₁ : own × σ}
    {fault : Fault} :
    Made output.above before parents → parents.create (temporary output) = .ok (here, opened) →
      Appended here held opened (tree m s.2) →
      EndsWith (FileSystem.rename (temporary output) output : ExceptT Fault m Unit).run s₁
        (.error fault) s →
      failure = .unwritable output fault → Abandoned output before failure s

omit [LawfulMonad m] in
theorem Abandoned.unfinished {output : Path} {before : FileTree} {failure : Failure} {s : own × σ}
    (h : Abandoned m output before failure s) : Unfinished output before (tree m s.2) := by
  cases h with
  | unopened hmade => exact .unopened hmade
  | cleared hmade hcreate hheld hremove => exact .removed hmade hcreate hheld hremove
  | uncleared hmade hcreate hheld hsame _ => exact .unmoved hmade hcreate (hsame ▸ hheld)
  | unpublished hmade hcreate hheld _ _ => exact .unmoved hmade hcreate hheld

/-- What a run leaves that got to the end, and what it tells: the report was moved to the output. -/
inductive Finished (settings : Settings) (Gives : String → Except Failure Bytes → Prop)
    (candidates : List (Candidate m)) (before after : FileTree) : Summary → Prop
  | moved {parents opened filled : FileTree} {here : Location} {report : Bytes}
    {pending : List Pending} {tally : Tally} :
    Made settings.output.above before parents →
      parents.create (temporary settings.output) = .ok (here, opened) →
      List.Forall₂ (Gave Gives) candidates pending →
      (pending.map Pending.parse).foldlM (Tally.step settings.policy) Tally.zero = .ok tally →
      report = Utf8.encode (Symbol.render (kept (pending.map Pending.parse)) settings.format) →
      Appended here report opened filled →
      filled.rename (temporary settings.output) settings.output = .ok after →
      Finished settings Gives candidates before after
        (settings.summary candidates.length tally (Sha256.hexHash report))

/-- What comes of making a report. -/
def Reported (settings : Settings) (Gives : String → Except Failure Bytes → Prop)
    (candidates : List (Candidate m)) (before : FileTree) (r : Except Failure Summary)
    (s : own × σ) : Prop :=
  match r with
  | .ok summary => Finished settings Gives candidates before (tree m s.2) summary
  | .error failure => Abandoned m settings.output before failure s

/-- Reading the candidate leaves the file tree alone and gives something that `Gives` allows. -/
def Quiet (Gives : String → Except Failure Bytes → Prop) (c : Candidate m) : Prop :=
  ∀ s : own × σ, Ends c.read.run s (fun r s' => tree m s'.2 = tree m s.2 ∧ Gives c.name r)
    fun s' => tree m s' = tree m s.2

variable {settings : Settings} {Gives : String → Except Failure Bytes → Prop}
  {candidates : List (Candidate m)}

omit [LawfulMonad m] in
theorem Quiet.imp {Gives' : String → Except Failure Bytes → Prop} {c : Candidate m}
    (h : Quiet Gives c) (hgives : ∀ name r, Gives name r → Gives' name r) : Quiet Gives' c :=
  fun s => (h s).mono fun r _ hr => ⟨hr.1, hgives c.name r hr.2⟩

omit [LawfulMonad m] in
theorem Quiet.keeps {c : Candidate m} (h : Quiet Gives c) (here : Location) (opened : FileTree) :
    c.Keeps (fun held s => Appended here held opened (tree m s.2))
      (GivenUp True fun held s => Appended here held opened (tree m s)) Gives := by
  intro held s hs
  refine (h s).imp (fun r s' hr => ⟨?_, hr.2⟩) fun s' hs' => ⟨trivial, held, ?_⟩
  · show Appended here held opened (tree m s'.2)
    rw [hr.1]
    exact hs
  · show Appended here held opened (tree m s')
    rw [hs']
    exact hs

omit [LawfulMonad m] in
theorem follows_of_appendsTo {file : Sink m} {here : Location}
    (h : file.AppendsTo (tree m) here) (opened : FileTree) :
    file.Follows fun held s => Appended here held opened (tree m s.2) where
  write {held s} bytes hs := by
    refine (h.write bytes s).mono fun r s' hr => ?_
    cases r with
    | error fault => exact hr ▸ hs
    | ok n => exact ⟨hr.1, hs.append hr.2⟩
  flush {held s} hs := (h.flush s).mono fun _ _ hr => hr ▸ hs

theorem ends_makeReport (hcandidates : ∀ c ∈ candidates, Quiet Gives c) (s : own × σ) :
    Ends (makeReport settings candidates).run s
      (fun r s' => Reported settings Gives candidates (tree m s.2) r s')
      fun s' => Unfinished settings.output (tree m s.2) (tree m s') := by
  refine ends_run_bind.mpr ((ends_makeParent settings.output s).of_false fun r s₁ hmade => ?_)
  cases r with
  | error failure => exact .unopened hmade
  | ok _ =>
    refine ends_run_bind.mpr (ends_run_adapt.mpr ?_)
    refine (CarriesTree.create (temporary settings.output) s₁).of_false fun r s₂ hcreate => ?_
    cases r with
    | error fault => exact .unopened (hcreate ▸ hmade)
    | ok file =>
      obtain ⟨here, hcreate, hfile⟩ := hcreate
      have hfollows := follows_of_appendsTo hfile (tree m s₂.2)
      refine ends_run_bind.mpr (ends_run_lift.mpr ?_)
      have hfill : Ends (fillFile settings file candidates) s₂ (fun r s' =>
            Filled settings (fun held s => Appended here held (tree m s₂.2) (tree m s)) Gives
              candidates
              r s'.2)
          (GivenUp True fun held s => Appended here held (tree m s₂.2) (tree m s)) :=
        ends_fillFile hfollows (fun c hc => (hcandidates c hc).keeps here _) (.nothing here _)
      refine hfill.imp (fun r s₃ hfilled => ?_) fun s₃ hheld => ?_
      · cases r with
        | error failure =>
          obtain ⟨held, hheld⟩ := hfilled
          refine ends_run_bind.mpr (ends_run_lift.mpr ?_)
          refine (CarriesTree.remove (temporary settings.output) s₃).and_endsWith.of_false
            fun r s₄ hr => ?_
          obtain ⟨hends, hremove⟩ := hr
          refine ends_run_throw.mpr ?_
          cases r with
          | error fault => exact .uncleared hmade hcreate hheld hremove hends
          | ok _ => exact .cleared hmade hcreate hheld hremove
        | ok filled =>
          obtain ⟨pending, report, hpending, hfold, hreport, hdigest, hheld⟩ := hfilled
          refine ends_run_bind.mpr (ends_run_adapt.mpr ?_)
          refine (CarriesTree.rename (temporary settings.output)
            settings.output s₃).and_endsWith.of_false fun r s₄ hr => ?_
          obtain ⟨hends, hrename⟩ := hr
          cases r with
          | error fault => exact .unpublished hmade hcreate (hrename ▸ hheld) hends rfl
          | ok _ =>
            refine ends_run_pure.mpr ?_
            rw [hdigest]
            exact .moved hmade hcreate hpending hfold hreport hheld hrename
      · obtain ⟨-, held, hheld⟩ := hheld
        exact .unmoved hmade hcreate hheld

/-- A report on candidates that are never given up is not given up. -/
theorem ends_makeReport_of_steady {candidates : List (Candidate m)}
    (h : ∀ c ∈ candidates, ∀ here opened,
      c.Keeps (fun held s => Appended here held opened (tree m s.2))
        (GivenUp False fun held s => Appended here held opened (tree m s)) Gives) (s : own × σ) :
    Ends (makeReport settings candidates).run s (fun _ _ => True) fun _ => False := by
  refine ends_run_bind.mpr ((ends_makeParent settings.output s).mono fun r s₁ _ => ?_)
  cases r with
  | error failure => trivial
  | ok _ =>
    refine ends_run_bind.mpr (ends_run_adapt.mpr ?_)
    refine (CarriesTree.create (temporary settings.output) s₁).mono fun r s₂ hcreate => ?_
    cases r with
    | error fault => trivial
    | ok file =>
      obtain ⟨here, hcreate, hfile⟩ := hcreate
      refine ends_run_bind.mpr (ends_run_lift.mpr ?_)
      refine (ends_fillFile (F := fun held s => Appended here held (tree m s₂.2) (tree m s))
        (follows_of_appendsTo hfile _) (fun c hc => h c hc here _) (.nothing here _)).imp
        (fun r s₃ _ => ?_) fun _ hs => hs.1
      cases r with
      | error failure =>
        refine ends_run_bind.mpr (ends_run_lift.mpr ?_)
        exact (CarriesTree.remove (temporary settings.output) s₃).mono fun _ _ _ =>
          ends_run_throw.mpr trivial
      | ok filled =>
        refine ends_run_bind.mpr (ends_run_adapt.mpr ?_)
        refine (CarriesTree.rename (temporary settings.output) settings.output s₃).mono
          fun r s₄ _ => ?_
        cases r with
        | error fault => trivial
        | ok _ => exact ends_run_pure.mpr trivial

/-! ## The whole dump -/

section
omit [LawfulMonad m] [CarriesTree own σ m] [RunsOver own σ m]

/-- Lists candidates and makes the report on them. -/
def dumpSource (settings : Settings) (listing : ExceptT Failure m (List (Candidate m))) :
    ExceptT Failure m Summary := do
  makeReport settings (← listing)

/-- Finds out what the root is, opens it and lists its candidates. -/
def listRoot (settings : Settings) : ExceptT Failure m (List (Candidate m)) := do
  match ← detectRoot settings.root with
  | .directory =>
    let (keys, source) ← ExceptT.lift ((DirectorySource.ofRoot settings.root).list settings.filter)
    return source.candidates (← ExceptT.mk (pure keys))
  | .archive =>
    let bytes ← (FileSystem.map settings.root).adapt (unreadableFile settings.root)
    let source ← ExceptT.mk (pure (ArchiveSource.open? settings.root bytes))
    let (keys, source) := source.list settings.filter
    return source.candidates keys

theorem dump_eq [LawfulMonad m] (settings : Settings) :
    dump (m := m) settings = do
      let start ← ExceptT.lift (FileSystem.milliseconds : m Nat)
      let summary ← dumpSource settings (listRoot settings)
      let stop ← ExceptT.lift (FileSystem.milliseconds : m Nat)
      return { summary with durationMs := stop - start } := by
  simp only [dump, dumpSource, listRoot, bind_assoc]
  congr 1; funext start
  congr 1; funext kind
  cases kind <;> simp only [dumpDirectory, dumpArchive, bind_assoc, pure_bind]

end

/-- Listing leaves the file tree alone and gives candidates as `P` says. -/
def Lists (listing : ExceptT Failure m (List (Candidate m))) (s : own × σ)
    (P : List (Candidate m) → Prop) : Prop :=
  Ends listing.run s
    (fun r s' => tree m s'.2 = tree m s.2 ∧ ∀ candidates, r = .ok candidates → P candidates)
    fun s' => tree m s' = tree m s.2

/-- What comes of a dump. -/
def Dumped (settings : Settings) (Gives : String → Except Failure Bytes → Prop)
    (P : List (Candidate m) → Prop) (before : FileTree) (r : Except Failure Summary)
    (s : own × σ) : Prop :=
  match r with
  | .ok summary =>
    ∃ candidates, P candidates ∧ Finished settings Gives candidates before (tree m s.2) summary
  | .error failure => Abandoned m settings.output before failure s

theorem ends_dumpSource {listing : ExceptT Failure m (List (Candidate m))} {s : own × σ}
    {P : List (Candidate m) → Prop}
    (hlisting : Lists listing s fun candidates => P candidates ∧ ∀ c ∈ candidates, Quiet Gives c) :
    Ends (dumpSource settings listing).run s
      (fun r s' => Dumped settings Gives P (tree m s.2) r s')
      fun s' => Unfinished settings.output (tree m s.2) (tree m s') := by
  refine ends_run_bind.mpr (hlisting.imp (fun r s₁ hr => ?_) fun s' hs' => .unopened (hs' ▸ .refl))
  obtain ⟨hsame, hcandidates⟩ := hr
  cases r with
  | error failure => exact .unopened (hsame ▸ .refl)
  | ok candidates =>
    obtain ⟨hP, hquiet⟩ := hcandidates candidates rfl
    refine (ends_makeReport hquiet s₁).imp (fun r s₂ hr => ?_) fun s₂ hs₂ => hsame ▸ hs₂
    rw [hsame] at hr
    cases r with
    | error failure => exact hr
    | ok summary => exact ⟨candidates, hP, hr⟩

theorem ends_dumpSource_of_quiet {listing : ExceptT Failure m (List (Candidate m))} {s : own × σ}
    (hlisting : Lists listing s fun candidates => ∀ c ∈ candidates, Quiet Gives c) :
    Ends (dumpSource settings listing).run s
      (fun r s' => Dumped settings Gives (fun _ : List (Candidate m) => True) (tree m s.2) r s')
      fun s' => Unfinished settings.output (tree m s.2) (tree m s') :=
  ends_dumpSource (hlisting.mono fun _ _ hr =>
    ⟨hr.1, fun candidates h => ⟨trivial, hr.2 candidates h⟩⟩)

theorem unfinished_dumpSource {listing : ExceptT Failure m (List (Candidate m))} {s : own × σ}
    (hlisting : Lists listing s fun candidates => ∀ c ∈ candidates, Quiet Gives c) :
    Ends (dumpSource settings listing).run s
      (fun r s' => ∀ failure, r = .error failure →
        Unfinished settings.output (tree m s.2) (tree m s'.2))
      fun s' => Unfinished settings.output (tree m s.2) (tree m s') := by
  refine (ends_dumpSource_of_quiet hlisting).mono fun r s' hr failure hfailure => ?_
  subst hfailure
  exact Abandoned.unfinished hr

/-! ### Sources -/

/-- Reading may give anything. -/
abbrev Anything : String → Except Failure Bytes → Prop := fun _ _ => True

theorem quiet_directory (source : DirectorySource) (keys : List String) :
    ∀ c ∈ (source.candidates keys : List (Candidate m)), Quiet Anything c := by
  intro c hc s
  obtain ⟨key, -, rfl⟩ := List.mem_map.mp hc
  exact ends_run_adapt.mpr ((CarriesTree.read _ s).of_false fun _ _ hr => ⟨hr, trivial⟩)

omit [LawfulMonad m] [RunsOver own σ m] [FileSystem m] [CarriesTree own σ m] in
theorem run_read_archive {source : ArchiveSource} {key : String} {result : Except Failure Bytes}
    (h : source.outcome key = .ok result) :
    (source.read key : ExceptT Failure m Bytes).run = pure result := by
  simp only [ArchiveSource.read, h, ExceptT.run_mk]

omit [LawfulMonad m] in
theorem quiet_archive (source : ArchiveSource) (keys : List String) :
    ∀ c ∈ (source.candidates keys : List (Candidate m)),
      Quiet (fun key r => source.outcome key = .ok r) c := by
  intro c hc s
  obtain ⟨key, -, rfl⟩ := List.mem_map.mp hc
  rcases houtcome : source.outcome key with abort | result
  · have hread : (source.read key : ExceptT Failure m Bytes).run = throwThe Abort abort := by
      simp only [ArchiveSource.read, houtcome, ExceptT.run_mk]
    exact hread ▸ ends_throw.mpr rfl
  · have hread : (source.read key : ExceptT Failure m Bytes).run = pure result :=
      run_read_archive houtcome
    exact hread ▸ ends_pure.mpr ⟨rfl, houtcome⟩

omit [LawfulMonad m] in
theorem quiet_memory (source : MemorySource) (names : List String) :
    ∀ c ∈ (source.candidates names : List (Candidate m)),
      Quiet (fun name r => r = source.content name) c := by
  intro c hc s
  obtain ⟨name, -, rfl⟩ := List.mem_map.mp hc
  exact ends_pure.mpr ⟨rfl, rfl⟩

theorem ends_detectRoot (root : Path) (s : own × σ) :
    Ends (detectRoot root : ExceptT Failure m _).run s
      (fun _ s' => tree m s'.2 = tree m s.2) fun _ => False := by
  refine ends_run_bind.mpr (ends_run_adapt.mpr ((CarriesTree.kind root s).mono fun r s' hr => ?_))
  cases r with
  | error fault => exact hr
  | ok kind => cases kind <;> exact ends_run_pure.mpr hr

omit [LawfulMonad m] in
theorem ends_list (source : DirectorySource) (filter : Filter) (s : own × σ) :
    Ends (source.list filter : m _) s (fun _ s' => tree m s'.2 = tree m s.2) fun _ => False := by
  unfold DirectorySource.list
  split
  · exact ends_pure.mpr rfl
  · refine ends_bind.mpr ((CarriesTree.walk source.root s).mono fun r s' hr => ?_)
    cases r <;> exact ends_pure.mpr hr

theorem lists_listRoot (settings : Settings) (s : own × σ) :
    Lists (listRoot settings : ExceptT Failure m _) s fun candidates =>
      ∀ c ∈ candidates, Quiet Anything c := by
  refine ends_run_bind.mpr ((ends_detectRoot settings.root s).of_false fun r s₁ hs₁ => ?_)
  rcases r with failure | _ | _
  · exact ⟨hs₁, nofun⟩
  · refine ends_run_bind.mpr (ends_run_lift.mpr ?_)
    refine (ends_list _ settings.filter s₁).of_false fun r s₂ hs₂ => ?_
    obtain ⟨keys, source⟩ := r
    refine ends_run_bind.mpr (ends_pure.mpr ?_)
    cases keys with
    | error failure => exact ⟨hs₂.trans hs₁, nofun⟩
    | ok keys =>
      refine ends_run_pure.mpr ⟨hs₂.trans hs₁, fun candidates hcandidates => ?_⟩
      cases hcandidates
      exact quiet_directory source keys
  · refine ends_run_bind.mpr (ends_run_adapt.mpr ?_)
    refine (CarriesTree.map settings.root s₁).of_false fun r s₂ hs₂ => ?_
    cases r with
    | error fault => exact ⟨hs₂.trans hs₁, nofun⟩
    | ok bytes =>
      refine ends_run_bind.mpr (ends_pure.mpr ?_)
      rcases ArchiveSource.open? settings.root bytes with failure | source
      · exact ⟨hs₂.trans hs₁, nofun⟩
      · refine ends_run_pure.mpr ⟨hs₂.trans hs₁, fun candidates hcandidates => ?_⟩
        cases hcandidates
        exact fun c hc => (quiet_archive _ _ c hc).imp fun _ _ _ => trivial

theorem unfinished_dump (settings : Settings) (s : own × σ) :
    Ends (dump settings : ExceptT Failure m _).run s
      (fun r s' => ∀ failure, r = .error failure →
        Unfinished settings.output (tree m s.2) (tree m s'.2))
      fun s' => Unfinished settings.output (tree m s.2) (tree m s') := by
  rw [dump_eq]
  refine ends_run_bind.mpr (ends_run_lift.mpr ?_)
  refine (CarriesTree.milliseconds s).of_false fun start s₁ hs₁ => ?_
  rw [← hs₁]
  refine ends_run_bind.mpr
    ((unfinished_dumpSource (lists_listRoot settings s₁)).mono fun r s₂ hr => ?_)
  cases r with
  | error failure => exact fun _ _ => hr failure rfl
  | ok summary =>
    refine ends_run_bind.mpr (ends_run_lift.mpr ?_)
    exact (CarriesTree.milliseconds s₂).of_false fun _ _ _ => ends_run_pure.mpr nofun

end Dump

end JvmSymbols
