import JvmSymbols.Proofs.Dump.Counting
import JvmSymbols.Proofs.Dump.Failing

/-!
# Dumps that succeed

A dump that gets to the end has put at the output just the report that its summary tells of, provided
that the way to the output does not lead through the output itself (`Direct`).
-/

namespace JvmSymbols

open CarriesTree (tree)
open FileTree (IsPlain Leads Made Appended Ways SameBut)

namespace FileTree

/-- The directory of the path is still reached once what stands at the path is gone. -/
def Direct (tree : FileTree) (path : Path) : Prop :=
  ∀ front last directory, Path.split path.bytes = front ++ [last] →
    Leads tree (startOf path tree.working) front directory →
    Leads (tree.erase (directory ++ [last])) (startOf path tree.working) front directory

variable {tree tree' : FileTree} {path : Path} {front : List Name}
  {last : Name} {directory : Location}

theorem ways_erase (place : Location) (h : Ways tree tree') :
    Ways (tree.erase place) (tree'.erase place) := by
  intro here hhere
  rw [get?_erase, get?_erase]
  rw [get?_erase] at hhere
  split
  · rfl
  · rename_i hplace
    rw [if_neg hplace] at hhere
    exact h here hhere

theorem ways_erase_of_isLeaf {place : Location} (h : tree.IsLeaf place) :
    Ways tree (tree.erase place) := by
  intro here hhere
  rw [get?_erase, if_neg]
  rintro rfl
  rcases hhere with hhere | ⟨target, hhere⟩
  · exact h.1 hhere
  · exact h.2 target hhere

theorem get?_moved (source target : Location) (node : Node) (here : Location) :
    ((tree.erase source).set target node).get? here =
      if target = here then some node else if source = here then none else tree.get? here := by
  rw [get?_set, get?_erase]

/-- Moving a file takes away no more directories and links than removing what is at its new place. -/
theorem ways_moved {source target : Location} {bytes : Bytes}
    (h : tree.get? source = some (.file bytes)) :
    Ways (tree.erase target) ((tree.erase source).set target (.file bytes)) := by
  intro here hhere
  rw [get?_erase] at hhere
  by_cases htarget : target = here
  · rw [if_pos htarget] at hhere
    rcases hhere with hhere | ⟨link, hhere⟩ <;> cases hhere
  rw [if_neg htarget] at hhere
  have hsource : source ≠ here := by
    rintro rfl
    rw [h] at hhere
    rcases hhere with hhere | ⟨link, hhere⟩ <;> cases hhere
  rw [get?_moved, get?_erase, if_neg htarget, if_neg htarget, if_neg hsource]

end FileTree

namespace Dump

variable {output : Path} {front : List Name} {last : Name} {directory : Location}
  {before parents opened filled after : FileTree} {report : Bytes}

/-- The bytes that were written are all that is in the temporary file. -/
theorem Beside.get?_filled (h : Beside output front last directory parents opened)
    (hdevice : ∀ device, parents.object? (temporary output) ≠ some (.device device))
    (hheld : Appended (directory ++ [last ++ suffix]) report opened filled) :
    filled.get? (directory ++ [last ++ suffix]) = some (.file report) := by
  have hleads : Leads parents (FileTree.startOf (temporary output) parents.working)
      front directory := by
    rw [startOf_temporary]
    exact h.leads
  have hobject := FileTree.object?_of_leads h.check (split_temporary h.split) hleads
  rw [FileTree.held?_plain (isPlain_temporary last) h.length] at hobject
  rw [hobject] at hdevice
  rw [hheld.2, if_pos rfl, h.opened.empty hdevice]
  rfl

/-- The directory of the output is still reached once what stood at the output is gone. -/
theorem Beside.leads_erase (h : Beside output front last directory parents opened)
    (hclosed : before.Closed) (happroach : before.Approachable output)
    (hdirect : ∀ target, before.object? output = some (.link target) → before.Direct output)
    (hmade : Made output.above before parents)
    (hsame : SameBut (directory ++ [last ++ suffix]) parents filled)
    (hcheck : FileTree.checkPath output = .ok ()) (hplain : IsPlain last)
    (hlength : last.length ≤ FileTree.longestName)
    (hdirectory : filled.get? (directory ++ [last]) ≠ some .directory) :
    Leads (filled.erase (directory ++ [last]))
      (FileTree.startOf output filled.working) front directory := by
  have hways : Ways before filled := hmade.ways.1.trans hsame.ways
  have hworking : filled.working = before.working := hsame.working.trans hmade.ways.2
  have hfilled : Leads filled (FileTree.startOf output filled.working) front directory := by
    rw [hsame.working, hsame.leads_iff]
    exact h.leads
  have hobject : before.object? output = filled.get? (directory ++ [last]) := by
    rw [← object?_output hclosed happroach hmade, ← h.object?_eq hsame,
      FileTree.object?_of_leads hcheck h.split hfilled, FileTree.held?_plain hplain hlength]
  by_cases hleaf : ∃ target, filled.get? (directory ++ [last]) = some (.link target)
  · obtain ⟨target, hlink⟩ := hleaf
    rw [hlink] at hobject
    obtain ⟨place, hthere⟩ :
        ∃ place, Leads before (FileTree.startOf output before.working) front place := by
      by_contra hnone
      rw [FileTree.object?_of_not_leads hcheck h.split (not_exists.mp hnone)] at hobject
      cases hobject
    have hplace := hthere.ways hways
    rw [← hworking] at hplace
    cases hplace.unique hfilled
    have herase := hdirect target hobject front last directory h.split hthere
    rw [← hworking] at herase
    exact herase.ways (FileTree.ways_erase _ hways)
  · exact hfilled.ways (FileTree.ways_erase_of_isLeaf ⟨hdirectory, not_exists.mp hleaf⟩)

theorem Beside.published (h : Beside output front last directory parents opened)
    (hclosed : before.Closed) (happroach : before.Approachable output)
    (hdirect : ∀ target, before.object? output = some (.link target) → before.Direct output)
    (hmade : Made output.above before parents)
    (hdevice : ∀ device, parents.object? (temporary output) ≠ some (.device device))
    (hheld : Appended (directory ++ [last ++ suffix]) report opened filled)
    (hrename : filled.rename (temporary output) output = .ok after) :
    after.object? output = some (.file report) ∧ after.object? (temporary output) = none := by
  have hsame := h.opened.appended hheld
  obtain ⟨source, target, node, hsource, htarget, hnode, hdirectory, rfl⟩ :=
    FileTree.rename_eq hrename
  rw [h.entry_temporary hsame] at hsource
  obtain ⟨rfl, -⟩ := FileTree.Entry.named.inj (Except.ok.inj hsource)
  rw [h.get?_filled hdevice hheld] at hnode
  cases hnode
  obtain ⟨hcheck, hplain, hlength, place, hplace, rfl⟩ :=
    FileTree.entry_eq_named_false htarget h.split
  have hleads := h.leads
  rw [← hsame.leads_iff, ← hsame.working] at hleads
  cases hplace.unique hleads
  have herase := h.leads_erase hclosed happroach hdirect hmade hsame hcheck hplain hlength hdirectory
  have hafter := herase.ways (FileTree.ways_moved (h.get?_filled hdevice hheld))
  constructor
  · rw [FileTree.object?_of_leads hcheck h.split hafter, FileTree.held?_plain hplain hlength,
      FileTree.get?_moved, if_pos rfl]
  · have htemporary := split_temporary h.split
    rw [← startOf_temporary] at hafter
    rw [FileTree.object?_of_leads h.check htemporary hafter,
      FileTree.held?_plain (isPlain_temporary last) h.length, FileTree.get?_moved,
      if_neg (place_ne directory last), if_pos rfl]

/-! ## The summary -/

theorem encode_render_flatMap (classes : List ClassFile.Descriptor) (format : ReportFormat) :
    Utf8.encode (Symbol.render (classes.flatMap Symbol.ofDescriptor) format) =
      classes.flatMap fun d => Utf8.encode (Symbol.render (Symbol.ofDescriptor d) format) := by
  induction classes with
  | nil => rfl
  | cons d classes ih => rw [List.flatMap_cons, List.flatMap_cons, Symbol.encode_render_append, ih]

variable {m : Type → Type}

theorem map_parse_of_forall₂ {content : String → Except Failure Bytes}
    {candidates : List (Candidate m)}
    {pending : List Pending}
    (h : List.Forall₂ (Gave fun name r => r = content name) candidates pending) :
    pending.map Pending.parse = resultsOf content (candidates.map (·.name)) := by
  induction h with
  | nil => rfl
  | cons hgave _ ih =>
    rw [List.map_cons, ih, Pending.parse, hgave.1, hgave.2]
    rfl

variable [Monad m] [LawfulMonad m] [MonadExceptOf Archive.Abort m] {own σ : Type} [RunsOver own σ m]
  [FileSystem m] [CarriesTree own σ m]

/-- A dump that succeeds puts a report at the output that holds the lines of just the candidates that
were read and parsed, in their order. The summary tells of this report. -/
theorem dump_ok_publishes (settings : Settings) {s s' : own × σ}
    {listing : ExceptT Failure m (List (Candidate m))} {names : List String}
    {content : String → Except Failure Bytes} {summary : Summary}
    (hlisting : Lists listing s fun candidates => candidates.map (·.name) = names ∧
      ∀ c ∈ candidates, Quiet (fun name r => r = content name) c)
    (hclosed : (tree m s.2).Closed)
    (hnew : (tree m s.2).object? settings.output = none → (tree m s.2).Approachable settings.output)
    (hdirect : ∀ target, (tree m s.2).object? settings.output = some (.link target) →
      (tree m s.2).Direct settings.output)
    (hlink : ∀ target, (tree m s.2).object? (temporary settings.output) ≠ some (.link target))
    (hdevice : ∀ device, (tree m s.2).object? (temporary settings.output) ≠ some (.device device))
    (h : EndsWith (dumpSource settings listing).run s (.ok summary) s') :
    let classes := names.filterMap (describe? content)
    let report := classes.flatMap fun d =>
      Utf8.encode (Symbol.render (Symbol.ofDescriptor d) settings.format)
    (tree m s'.2).object? settings.output = some (.file report) ∧
      (tree m s'.2).object? (temporary settings.output) = none ∧
      summary.reportSha256 = Sha256.hexHash report ∧
      summary.candidates = names.length ∧
      summary.candidates = summary.classes + summary.failed.length ∧
      summary.classes = classes.length ∧
      summary.methods = (classes.map (·.methods.length)).sum ∧
      summary.fields = (classes.map (·.fields.length)).sum ∧
      (settings.policy = .failFast → summary.failed = []) := by
  intro classes report
  have happroach := FileTree.approachable_of_new hnew
  obtain ⟨candidates, hnames, hfinished⟩ := (ends_dumpSource hlisting).of_endsWith h
  obtain @⟨parents, opened, filled, here, written, pending, tally, hmade, hcreate, hpending, hfold,
    hwritten, hheld, hrename⟩ := hfinished
  obtain ⟨front, last, directory, rfl, hbeside⟩ :=
    exists_beside hclosed happroach hmade hlink hcreate
  rw [map_parse_of_forall₂ hpending, hnames] at hfold hwritten
  rw [kept_resultsOf, encode_render_flatMap] at hwritten
  subst hwritten
  rw [← object?_temporary hclosed happroach hmade] at hdevice
  obtain ⟨houtput, htemporary⟩ :=
    hbeside.published hclosed happroach hdirect hmade hdevice hheld hrename
  obtain ⟨hcounts, hfailFast⟩ := counts_of_foldlM_step hfold
  obtain ⟨hclasses, hmethods, hfields, hfailed⟩ := hcounts
  have hlength : candidates.length = names.length := by
    rw [← hnames, List.length_map]
  refine ⟨houtput, htemporary, rfl, hlength, ?_, ?_, ?_, ?_, hfailFast⟩
  · have hzero : Tally.zero.failed.length + Tally.zero.classes = 0 := rfl
    have hsum : names.length = tally.classes + tally.failed.length := by
      omega
    exact hlength.trans hsum
  · exact hclasses.trans (Nat.zero_add _)
  · exact hmethods.trans (Nat.zero_add _)
  · exact hfields.trans (Nat.zero_add _)

/-! ## Runs that succeed -/

/-- Settings that leave out what cannot be read. -/
def skippingFor (output : String) : Settings :=
  ⟨.ofString "root", .ofString output, .all, .text, .skipAndContinue, true⟩

theorem dump_bare_publishes :
    let candidates : List (Candidate World) := bareSource.candidates ["a.class", "b.class"]
    let run := (dumpSource (skippingFor "d/out") (pure candidates)).run
    let after : Unit × FileTree := ((), (Run.on FileTree.initial run).2)
    ∃ summary, EndsWith run ((), FileTree.initial) (.ok summary) after ∧
      after.2.object? (.ofString "d/out") = some (.file (Utf8.encode "class: a\n")) ∧
      after.2.object? (.ofString "d/out.tmp") = none ∧
      summary.reportSha256 = Sha256.hexHash (Utf8.encode "class: a\n") ∧
      summary.candidates = 2 ∧ summary.classes = 1 ∧ summary.methods = 0 ∧ summary.fields = 0 := by
  intro candidates run after
  have hlisting : Lists (pure candidates : ExceptT Failure World _) ((), FileTree.initial)
      fun candidates => candidates.map (·.name) = ["a.class", "b.class"] ∧
        ∀ c ∈ candidates, Quiet (fun name r => r = bareSource.content name) c := by
    refine ends_run_pure.mpr ⟨rfl, fun listed hlisted => ?_⟩
    cases hlisted
    exact ⟨rfl, quiet_memory bareSource _⟩
  have hnone : FileTree.initial.object? (temporary (.ofString "d/out")) = none := by decide
  have hnew : FileTree.initial.object? (.ofString "d/out") = none := by decide
  have happroach : FileTree.initial.Approachable (.ofString "d/out") :=
    ⟨[], [FileTree.name "d", FileTree.name "out"], [FileTree.name "work"], rfl, by decide, rfl⟩
  obtain ⟨summary, hends⟩ : ∃ summary, EndsWith run ((), FileTree.initial) (.ok summary) after :=
    Run.exists_endsWith (by decide +kernel)
  obtain ⟨houtput, htemporary, hdigest, hcandidates, -, hclasses, hmethods, hfields, -⟩ :=
    dump_ok_publishes (skippingFor "d/out") hlisting FileTree.closed_initial (fun _ => happroach)
      (fun _ => (nomatch hnew.symm.trans ·)) (fun _ => (nomatch hnone.symm.trans ·))
      (fun _ => (nomatch hnone.symm.trans ·)) hends
  have hreport : (["a.class", "b.class"].filterMap (describe? bareSource.content)).flatMap
      (fun d => Utf8.encode (Symbol.render (Symbol.ofDescriptor d) .text)) =
        Utf8.encode "class: a\n" := by decide +kernel
  refine ⟨summary, hends, ?_, htemporary, ?_, hcandidates, hclasses.trans ?_, hmethods.trans ?_,
    hfields.trans ?_⟩
  · exact hreport ▸ houtput
  · exact hreport ▸ hdigest
  all_goals decide +kernel

/-- A directory and a link to it. -/
def loopedTree : FileTree := workingTree [("d", .directory), ("out", .link (.ofString "d"))]

/-- A report of an earlier run, and a link to it with the name of the temporary file. -/
def linkedTree : FileTree := workingTree [("y", .file [104, 105]), ("y.tmp", .link (.ofString "y"))]

/-- A dump of no candidates. -/
def emptyDump (output : String) : World (Except Failure Summary) :=
  (dumpSource (skippingFor output) (pure [])).run

/-- If the way to the output leads through the link that stands there, the link is replaced by the
report, which is then out of reach. If it leads through a missing directory and back, a link that is
met at the temporary file only then is moved to the output. -/
theorem dump_loops_without_report :
    (loopedTree.object? (temporary (.ofString "out/../out")) = none ∧
      ∃ summary after, EndsWith (emptyDump "out/../out") ((), loopedTree) (.ok summary) ((), after) ∧
        after.object? (.ofString "out/../out") = none) ∧
    linkedTree.object? (temporary (.ofString "x/../y")) = none ∧
      ∃ summary after, EndsWith (emptyDump "x/../y") ((), linkedTree) (.ok summary) ((), after) ∧
        after.object? (.ofString "x/../y") = some (.link (.ofString "y")) := by
  obtain ⟨looped, hlooped⟩ : ∃ summary,
      EndsWith (emptyDump "out/../out") ((), loopedTree) (.ok summary)
        ((), (Run.on loopedTree (emptyDump "out/../out")).2) :=
    Run.exists_endsWith (by decide +kernel)
  obtain ⟨linked, hlinked⟩ : ∃ summary,
      EndsWith (emptyDump "x/../y") ((), linkedTree) (.ok summary)
        ((), (Run.on linkedTree (emptyDump "x/../y")).2) :=
    Run.exists_endsWith (by decide +kernel)
  refine ⟨⟨?_, looped, _, hlooped, ?_⟩, ?_, linked, _, hlinked, ?_⟩
  all_goals decide +kernel

end Dump

end JvmSymbols
