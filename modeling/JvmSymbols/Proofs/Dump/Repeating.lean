import JvmSymbols.Proofs.Dump.Agreeing
import JvmSymbols.Proofs.Dump.Confinement
import JvmSymbols.Proofs.Dump.Policies
import JvmSymbols.Proofs.FileTree.Linkless

/-!
# Reports that are made twice

On a file tree alone, a report is made in four steps, none of which may fail
(`endsWith_makeReport_ok`). If candidates read alike once more, the steps can be taken again on the
tree that they left: the same report takes the place of itself (`makeReport_again`).
-/

namespace JvmSymbols

open Dump (Failure)
open FileSystem (Fault)
open FileTree (Appended IsPlain Leads Made StaysBut Ways)
open RunsOver (exec)

/-! ## Operations that succeed -/

namespace FileTree

variable {tree : FileTree} {path old new : Path} {here : Location} {s' : Unit × FileTree}

theorem endsWith_update_ok {α : Type} {f : FileTree → Except Fault (α × FileTree)} {a : α} :
    EndsWith (update f : ExceptT Fault World α).run ((), tree) (.ok a) s' ↔
      f tree = .ok (a, s'.2) := by
  constructor
  · intro h
    exact (ends_update f _).of_endsWith h
  · intro h
    exact endsWith_update h

theorem endsWith_create_ok {file : Sink World} :
    EndsWith (FileSystem.create path : ExceptT Fault World _).run ((), tree) (.ok file) s' ↔
      ∃ here, tree.create path = .ok (here, s'.2) ∧ sink here = file := by
  refine endsWith_run_bind_ok.trans ?_
  constructor
  · rintro ⟨here, s₁, hupdate, hpure⟩
    obtain ⟨hfile, rfl⟩ := endsWith_run_pure_ok.mp hpure
    exact ⟨here, endsWith_update_ok.mp hupdate, hfile⟩
  · rintro ⟨here, hcreate, hfile⟩
    exact ⟨here, s', endsWith_update_ok.mpr hcreate, endsWith_run_pure_ok.mpr ⟨hfile, rfl⟩⟩

theorem endsWith_rename_ok :
    EndsWith (FileSystem.rename old new : ExceptT Fault World _).run ((), tree) (.ok ()) s' ↔
      tree.rename old new = .ok s'.2 := by
  constructor
  · intro h
    exact (ends_change _ _).of_endsWith h
  · intro h
    exact endsWith_change h

/-- The trees hold the same at the place of an open file. -/
def SameAt (here : Location) (s t : Unit × FileTree) : Prop := s.2.get? here = t.2.get? here

theorem equivalence_sameAt (here : Location) : Equivalence (SameAt here) where
  refl _ := rfl
  symm h := h.symm
  trans h h' := h.trans h'

theorem append_cases {tree' : FileTree} (h : tree.get? here = tree'.get? here) (bytes : Bytes) :
    (∃ fault, tree.append here bytes = .error fault ∧ tree'.append here bytes = .error fault) ∨
      ∃ after after', tree.append here bytes = .ok after ∧ tree'.append here bytes = .ok after' ∧
        after.get? here = after'.get? here := by
  rw [append, append, h]
  rcases tree'.get? here with _ | _ | held | target | _ | _
  · exact .inr ⟨tree, tree', rfl, rfl, h⟩
  · exact .inr ⟨tree, tree', rfl, rfl, h⟩
  · refine .inr ⟨_, _, rfl, rfl, ?_⟩
    rw [get?_set, get?_set, if_pos rfl, if_pos rfl]
  · exact .inr ⟨tree, tree', rfl, rfl, h⟩
  · by_cases hempty : bytes.isEmpty = true
    · exact .inr ⟨tree, tree', if_pos hempty, if_pos hempty, h⟩
    · exact .inl ⟨.noSpace, if_neg hempty, if_neg hempty⟩
  · exact .inr ⟨tree, tree', rfl, rfl, h⟩

/-- An open file takes what it is given whatever stands elsewhere. -/
theorem overlooks_sink (here : Location) : (sink here : Sink World).Overlooks (SameAt here) where
  write bytes := by
    intro s t hst
    rcases append_cases hst bytes with ⟨fault, hs, ht⟩ | ⟨after, after', hs, ht, hsame⟩
    · refine ⟨.error fault, s, .error fault, t, endsWith_update_error ?_, endsWith_update_error ?_,
        rfl, hst⟩
      · rw [hs]
        rfl
      · rw [ht]
        rfl
    · refine ⟨.ok bytes.length, ((), after), .ok bytes.length, ((), after'), endsWith_update ?_,
        endsWith_update ?_, rfl, hsame⟩
      · rw [hs]
        rfl
      · rw [ht]
        rfl
  flush := overlooks_pure _

end FileTree

namespace Dump

variable {settings : Settings} {candidates : List (Candidate World)} {tally : Tally}
  {digest : String} {summary : Summary} {before parents opened filled after : FileTree}
  {here : Location}

/-- The steps of a report that is made. -/
structure Steps (settings : Settings) (candidates : List (Candidate World)) (tally : Tally)
    (digest : String) (here : Location) (before parents opened filled after : FileTree) : Prop where
  prepare : EndsWith (makeParent settings.output : ExceptT Failure World Unit).run ((), before)
    (.ok ()) ((), parents)
  create : parents.create (temporary settings.output) = .ok (here, opened)
  fill : EndsWith (fillFile settings (FileTree.sink here) candidates) ((), opened)
    (.ok (tally, digest)) ((), filled)
  rename : filled.rename (temporary settings.output) settings.output = .ok after

/-- A report is made if all of its steps succeed. -/
theorem endsWith_makeReport_ok :
    EndsWith (makeReport settings candidates).run ((), before) (.ok summary) ((), after) ↔
      ∃ tally digest here parents opened filled,
        Steps settings candidates tally digest here before parents opened filled after ∧
          settings.summary candidates.length tally digest = summary := by
  constructor
  · intro h
    obtain ⟨_, ⟨_, parents⟩, hparents, h⟩ := endsWith_run_bind_ok.mp h
    obtain ⟨file, ⟨_, opened⟩, hopen, h⟩ := endsWith_run_bind_ok.mp h
    obtain ⟨here, hcreate, rfl⟩ := FileTree.endsWith_create_ok.mp (endsWith_run_adapt_ok.mp hopen)
    obtain ⟨r, ⟨_, filled⟩, hfill, h⟩ := endsWith_run_bind_ok.mp h
    rw [endsWith_run_lift_ok] at hfill
    rcases r with failure | ⟨tally, digest⟩
    · obtain ⟨_, s₁, -, h⟩ := endsWith_run_bind_ok.mp h
      have hthrow : EndsWith (throw failure : ExceptT Failure World Summary).run s₁ (.error failure)
        s₁ := RunsOver.exec_pure _ _
      exact nomatch (hthrow.unique h).1
    · obtain ⟨_, s₁, hrename, h⟩ := endsWith_run_bind_ok.mp h
      obtain ⟨hsummary, rfl⟩ := endsWith_run_pure_ok.mp h
      have hmoved := FileTree.endsWith_rename_ok.mp (endsWith_run_adapt_ok.mp hrename)
      exact ⟨tally, digest, here, parents, opened, filled, ⟨hparents, hcreate, hfill, hmoved⟩,
        hsummary⟩
  · rintro ⟨tally, digest, here, parents, opened, filled, hsteps, rfl⟩
    refine endsWith_run_bind_ok.mpr ⟨(), ((), parents), hsteps.prepare, ?_⟩
    refine endsWith_run_bind_ok.mpr ⟨FileTree.sink here, ((), opened), ?_, ?_⟩
    · exact (FileTree.endsWith_create_ok.mpr ⟨here, hsteps.create, rfl⟩).adapt
    refine endsWith_run_bind_ok.mpr ⟨.ok (tally, digest), ((), filled), hsteps.fill.lift, ?_⟩
    refine endsWith_run_bind_ok.mpr ⟨(), ((), after), ?_, endsWith_run_pure_ok.mpr ⟨rfl, rfl⟩⟩
    exact (FileTree.endsWith_rename_ok.mpr hsteps.rename).adapt

/-! ## What a report leaves -/

variable {output : Path} {front : List Name} {last : Name} {directory : Location}
  {report held : Bytes} {refilled : FileTree}

/-- The report stands beside the place of the temporary file, where nothing is left. -/
structure Published (output : Path) (front : List Name) (last : Name) (directory : Location)
    (report : Bytes) (parents empty after : FileTree) : Prop
    extends Beside output front last directory parents empty where
  plain : IsPlain last
  checkOutput : FileTree.checkPath output = .ok ()
  isLeaf : parents.IsLeaf (directory ++ [last])
  isEmpty : empty.get? (directory ++ [last ++ suffix]) = some (.file [])
  working : after.working = parents.working
  get? (place : Location) : after.get? place =
    if directory ++ [last] = place then some (.file report)
    else if directory ++ [last ++ suffix] = place then none
    else parents.get? place

theorem exists_published (hlinkless : parents.Linkless)
    (hdevice : ∀ device, parents.get? here ≠ some (.device device))
    (hcreate : parents.create (temporary output) = .ok (here, opened))
    (hheld : Appended here report opened filled)
    (hrename : filled.rename (temporary output) output = .ok after) :
    ∃ front last directory, here = directory ++ [last ++ suffix] ∧
      Published output front last directory report parents opened after := by
  obtain ⟨front, last, hsplit⟩ := Path.exists_split output.bytes
  obtain ⟨hcheck, hlength, directory, hleads, rfl, hopened⟩ := FileTree.exists_opened hcreate
    (split_temporary hsplit) (isPlain_temporary last) (hlinkless.object?_ne _)
  rw [startOf_temporary] at hleads
  have hbeside : Beside output front last directory parents opened :=
    ⟨hsplit, hcheck, hlength, hleads, hopened⟩
  have hsame := hopened.appended hheld
  have hempty := hopened.empty hdevice
  have hreport : filled.get? (directory ++ [last ++ suffix]) = some (.file report) := by
    rw [hheld.2, if_pos rfl, hempty]
    rfl
  obtain ⟨source, target, node, hsource, htarget, hnode, hdirectory, rfl⟩ :=
    FileTree.rename_eq hrename
  rw [hbeside.entry_temporary hsame] at hsource
  obtain ⟨rfl, -⟩ := FileTree.Entry.named.inj (Except.ok.inj hsource)
  rw [hreport] at hnode
  cases hnode
  obtain ⟨hcheckOutput, hplain, -, place, hplace, rfl⟩ :=
    FileTree.entry_eq_named_false htarget hsplit
  rw [hsame.working, hsame.leads_iff] at hplace
  cases hplace.unique hleads
  rw [hsame.elsewhere (place_ne directory last)] at hdirectory
  refine ⟨front, last, directory, rfl, hbeside, hplain, hcheckOutput, ⟨hdirectory, hlinkless _⟩,
    hempty, hsame.working, fun place => ?_⟩
  rw [FileTree.get?_moved]
  split
  · rfl
  split
  · rfl
  · rename_i hother
    exact hsame.elsewhere (Ne.symm hother)

namespace Published

variable (h : Published output front last directory report parents opened after)
include h

theorem ways : Ways parents after := by
  intro place hplace
  rw [h.get?, if_neg, if_neg]
  · rintro rfl
    rcases hplace with hplace | ⟨target, hplace⟩
    · exact h.opened.isLeaf.1 hplace
    · exact h.opened.isLeaf.2 target hplace
  · rintro rfl
    rcases hplace with hplace | ⟨target, hplace⟩
    · exact h.isLeaf.1 hplace
    · exact h.isLeaf.2 target hplace

theorem leads_after : Leads after (FileTree.startOf output after.working) front directory := by
  rw [h.working]
  exact h.leads.ways h.ways

theorem placeOf_output (hlinkless : parents.Linkless) :
    parents.placeOf output = directory ++ [last] :=
  FileTree.placeOf_of_leads hlinkless h.split h.plain h.leads

theorem placeOf_temporary (hlinkless : parents.Linkless) :
    parents.placeOf (temporary output) = directory ++ [last ++ suffix] := by
  apply FileTree.placeOf_of_leads hlinkless (split_temporary h.split) (isPlain_temporary last)
  rw [startOf_temporary]
  exact h.leads

/-- The parent of the output is the directory of the report. -/
theorem node_parent {parent : Path} (hparent : output.parent? = some parent)
    (hne : parent.bytes ≠ []) :
    FileTree.checkPath parent = .ok () ∧
      Leads after (FileTree.startOf parent after.working) (Path.split parent.bytes) directory := by
  obtain ⟨habsolute, name, hnames⟩ := Path.namesOf_of_parent? hparent hne
  obtain ⟨rest, hrest⟩ := Path.bytes_of_parent? hparent
  refine ⟨FileTree.checkPath_of_append hne hrest.symm h.checkOutput, ?_⟩
  rw [h.split, Path.namesOf_append, Path.namesOf_cons h.plain.not_isIdle] at hnames
  obtain ⟨hfront, -⟩ := List.append_inj' hnames rfl
  rw [FileTree.startOf_eq habsolute, ← Leads.namesOf_iff, ← hfront, Leads.namesOf_iff]
  exact h.leads_after

/-- There is no directory left to make. -/
theorem makeParent_again :
    EndsWith (makeParent output : ExceptT Failure World Unit).run ((), after) (.ok ())
      ((), after) := by
  rw [makeParent]
  rcases hparent : output.parent? with _ | parent
  · exact endsWith_run_pure_ok.mpr ⟨rfl, rfl⟩
  dsimp only
  by_cases hempty : parent.bytes.isEmpty = true
  · rw [if_pos hempty]
    exact endsWith_run_pure_ok.mpr ⟨rfl, rfl⟩
  obtain ⟨hcheck, hleads⟩ := h.node_parent hparent (by simpa using hempty)
  have hmake : EndsWith (FileSystem.makeDirectory parent : ExceptT Fault World Unit).run ((), after)
      (.error .entryExists) ((), after) := by
    apply FileTree.endsWith_change_error
    exact FileTree.makeDirectory_of_leads hcheck hleads
  have hkind : EndsWith (FileSystem.kind parent : ExceptT Fault World _).run ((), after)
      (.ok .directory) ((), after) := by
    apply FileTree.endsWith_observe
    exact FileTree.kind_of_node (hleads.node_directory hcheck)
  have hpresent : EndsWith (FileSystem.orPresent parent .entryExists : ExceptT Fault World Unit).run
      ((), after) (.ok ()) ((), after) := by
    refine endsWith_run_bind_ok.mpr ⟨true, ((), after), ?_, endsWith_run_pure_ok.mpr ⟨rfl, rfl⟩⟩
    rw [FileSystem.isDirectory]
    apply EndsWith.run_tryCatch_ok
    exact endsWith_run_bind_ok.mpr
      ⟨.directory, ((), after), hkind, endsWith_run_pure_ok.mpr ⟨rfl, rfl⟩⟩
  rw [if_neg hempty, endsWith_run_adapt_ok, FileSystem.makeDirectories, FileSystem.ancestors,
    FileSystem.ancestorsWithin, FileSystem.makeWithAncestors, if_neg hempty]
  exact hmake.run_tryCatch_error hpresent

theorem create_again : after.create (temporary output) = .ok (directory ++ [last ++ suffix],
    after.set (directory ++ [last ++ suffix]) (.file [])) := by
  apply FileTree.create_of_leads h.check (split_temporary h.split) (isPlain_temporary last) h.length
  · rw [startOf_temporary]
    exact h.leads_after
  · rw [h.get?, if_neg (place_ne directory last), if_pos rfl]

theorem rename_again
    (hheld : Appended (directory ++ [last ++ suffix]) held
      (after.set (directory ++ [last ++ suffix]) (.file [])) refilled)
    (hreport : refilled.get? (directory ++ [last ++ suffix]) = some (.file report)) :
    ∃ final, refilled.rename (temporary output) output = .ok final ∧
      final.working = after.working ∧ ∀ place, final.get? place = after.get? place := by
  have hnone : after.get? (directory ++ [last ++ suffix]) = none := by
    rw [h.get?, if_neg (place_ne directory last), if_pos rfl]
  have hsame : FileTree.SameBut (directory ++ [last ++ suffix]) after refilled := by
    apply (FileTree.Opened.of_set _).appended hheld
    rw [FileTree.IsLeaf, hnone]
    exact ⟨(Option.some_ne_none _).symm, fun _ => (Option.some_ne_none _).symm⟩
  have hleads : Leads refilled (FileTree.startOf output refilled.working) front directory := by
    rw [hsame.working, hsame.leads_iff]
    exact h.leads_after
  have hlength : last.length ≤ FileTree.longestName := by
    have hlonger := h.length
    rw [List.length_append] at hlonger
    exact (Nat.le_add_right _ _).trans hlonger
  have hold : refilled.entry (temporary output) =
      .ok (.named (directory ++ [last ++ suffix]) false) := by
    apply FileTree.entry_of_split h.check (split_temporary h.split) (isPlain_temporary last) h.length
    rw [startOf_temporary]
    exact hleads
  have hnew : refilled.entry output = .ok (.named (directory ++ [last]) false) :=
    FileTree.entry_of_split h.checkOutput h.split h.plain hlength hleads
  have htarget : refilled.get? (directory ++ [last]) = some (.file report) := by
    rw [hsame.elsewhere (place_ne directory last), h.get?, if_pos rfl]
  refine ⟨_, FileTree.rename_of_entries hold hnew hreport (by rintro ⟨⟩) ?_, hsame.working,
    fun place => ?_⟩
  · rw [htarget]
    rintro ⟨⟩
  · rw [FileTree.get?_moved, h.get?]
    split
    · rfl
    split
    · rfl
    · rename_i houtput htemporary
      rw [hsame.elsewhere (Ne.symm htemporary), h.get?, if_neg houtput, if_neg htemporary]

end Published

theorem appended_of_fillFile {counts : Tally × String} (hquiet : ∀ c ∈ candidates, Quiet Anything c)
    (h : EndsWith (fillFile settings (FileTree.sink here) candidates) ((), opened) (.ok counts)
      ((), filled)) : ∃ report, Appended here report opened filled := by
  have hfilled : Filled settings (fun held tree => Appended here held opened tree) Anything
      candidates (.ok counts) filled :=
    (ends_fillFile (follows_of_appendsTo (FileTree.appendsTo_sink here) opened)
      (fun c hc => (hquiet c hc).keeps here opened) (.nothing here opened)).of_endsWith h
  obtain ⟨pending, report, -, -, -, -, hheld⟩ := hfilled
  exact ⟨report, hheld⟩

/-- A report that is made is published. -/
theorem Steps.published
    (h : Steps settings candidates tally digest here before parents opened filled after)
    (hquiet : ∀ c ∈ candidates, Quiet Anything c) (hlinkless : before.Linkless)
    (hdevice : ∀ device,
      before.get? (before.placeOf (temporary settings.output)) ≠ some (.device device)) :
    Made settings.output.above before parents ∧ ∃ report front last directory,
      here = directory ++ [last ++ suffix] ∧ Appended here report opened filled ∧
        Published settings.output front last directory report parents opened after := by
  have hmade : Made settings.output.above before parents :=
    (ends_makeParent settings.output _).of_endsWith h.prepare
  have hparents := hmade.linkless hlinkless
  have hplace : before.placeOf (temporary settings.output) = here := by
    rw [← FileTree.placeOf_congr hmade.ways.2]
    exact FileTree.placeOf_of_create hparents h.create
  have hnoDevice : ∀ device, parents.get? here ≠ some (.device device) := by
    intro device hnode
    rw [hplace] at hdevice
    by_cases hsame : parents.get? here = before.get? here
    · exact hdevice device (hsame.symm.trans hnode)
    · obtain ⟨-, hdirectory, -⟩ := hmade.of_get?_ne hsame
      exact nomatch hnode.symm.trans hdirectory
  obtain ⟨report, hheld⟩ := appended_of_fillFile hquiet h.fill
  obtain ⟨front, last, directory, hhere, hpublished⟩ :=
    exists_published hparents hnoDevice h.create hheld h.rename
  exact ⟨hmade, report, front, last, directory, hhere, hheld, hpublished⟩

/-- A report that was made leaves itself at the output, nothing at the temporary file and new
directories above the output. All else is as it was. -/
structure Leaves (output : Path) (before after : FileTree) : Prop where
  ways : Ways before after
  working : after.working = before.working
  report : ∃ bytes, after.get? (before.placeOf output) = some (.file bytes)
  cleared : after.get? (before.placeOf (temporary output)) = none
  others {place : Location} : place ≠ before.placeOf output →
    place ≠ before.placeOf (temporary output) → after.get? place ≠ before.get? place →
      before.get? place = none ∧ after.get? place = some .directory ∧
        ∃ path ∈ output.above, before.placeOf path = place

theorem Published.leaves
    (h : Published output front last directory report parents opened after)
    (hlinkless : before.Linkless) (hmade : Made output.above before parents) :
    Leaves output before after := by
  have hparents := hmade.linkless hlinkless
  obtain ⟨hways, hworking⟩ := hmade.ways
  have houtput : before.placeOf output = directory ++ [last] := by
    rw [← FileTree.placeOf_congr hworking, h.placeOf_output hparents]
  have htemporary : before.placeOf (temporary output) = directory ++ [last ++ suffix] := by
    rw [← FileTree.placeOf_congr hworking, h.placeOf_temporary hparents]
  refine ⟨hways.trans h.ways, h.working.trans hworking, ⟨report, ?_⟩, ?_, ?_⟩
  · rw [houtput, h.get?, if_pos rfl]
  · rw [htemporary, h.get?, if_neg (place_ne directory last), if_pos rfl]
  · intro place hne hne'
    rw [houtput] at hne
    rw [htemporary] at hne'
    rw [h.get?, if_neg (Ne.symm hne), if_neg (Ne.symm hne')]
    intro hchanged
    obtain ⟨hnone, hdirectory, path, hpath, hleads⟩ := hmade.of_get?_ne hchanged
    refine ⟨hnone, hdirectory, path, hpath, ?_⟩
    rw [← FileTree.placeOf_congr hworking]
    exact (hleads.eq_foldl hparents).symm

theorem Leaves.linkless (h : Leaves output before after) (hlinkless : before.Linkless) :
    after.Linkless := by
  intro place target
  by_cases houtput : place = before.placeOf output
  · obtain ⟨bytes, hreport⟩ := h.report
    rw [houtput, hreport]
    exact nofun
  by_cases htemporary : place = before.placeOf (temporary output)
  · rw [htemporary, h.cleared]
    exact nofun
  by_cases hsame : after.get? place = before.get? place
  · rw [hsame]
    exact hlinkless place target
  · rw [(h.others houtput htemporary hsame).2.1]
    exact nofun

theorem leaves_of_makeReport (hquiet : ∀ c ∈ candidates, Quiet Anything c)
    (hlinkless : before.Linkless)
    (hdevice : ∀ device,
      before.get? (before.placeOf (temporary settings.output)) ≠ some (.device device))
    (h : EndsWith (makeReport settings candidates).run ((), before) (.ok summary) ((), after)) :
    Leaves settings.output before after := by
  obtain ⟨_, _, _, parents, _, _, hsteps, -⟩ := endsWith_makeReport_ok.mp h
  obtain ⟨hmade, _, _, _, _, -, -, hpublished⟩ := hsteps.published hquiet hlinkless hdevice
  exact hpublished.leaves hlinkless hmade

/-! ## Making a report again -/

variable {content : String → Except Failure Bytes} {tree : FileTree}

/-- While a report is made from `tree`, the candidates read as `content` says. -/
def ReadWhile (output : Path) (content : String → Except Failure Bytes)
    (candidates : List (Candidate World)) (tree : FileTree) : Prop :=
  ∀ after, StaysBut (temporary output) tree after → ∀ c ∈ candidates,
    EndsWith c.read.run ((), after) (content c.name) ((), after)

/-- The candidate that reads so whatever the file tree holds. -/
def settled (content : String → Except Failure Bytes) (c : Candidate World) : Candidate World :=
  ⟨c.name, ExceptT.mk (pure (content c.name))⟩

theorem quiet_settled : ∀ c ∈ candidates.map (settled content), Quiet Anything c := by
  intro c hc s
  obtain ⟨c, -, rfl⟩ := List.mem_map.mp hc
  exact ends_pure.mpr ⟨rfl, trivial⟩

theorem exec_makeReport_settled (hlinkless : tree.Linkless)
    (h : ReadWhile settings.output content candidates tree) :
    exec (makeReport settings candidates).run ((), tree) =
      exec (makeReport settings (candidates.map (settled content))).run ((), tree) := by
  have hids : candidates.map (fun c => c) = candidates := List.map_id' candidates
  conv_lhs => rw [← hids]
  refine exec_makeReport_congr ?_ fun c hc => quiet_settled _ (List.mem_map_of_mem hc)
  intro parents here opened hmade hcreate c hc
  refine ⟨rfl, fun held s hheld => ?_⟩
  have hstays := FileTree.staysBut_of_create hlinkless hmade hcreate hheld
  exact (h _ hstays c hc).trans (RunsOver.exec_pure _ _).symm

theorem endsWith_makeReport_settled {r : Except Failure Summary} (hlinkless : tree.Linkless)
    (h : ReadWhile settings.output content candidates tree) :
    EndsWith (makeReport settings candidates).run ((), tree) r ((), after) ↔
      EndsWith (makeReport settings (candidates.map (settled content))).run ((), tree) r
        ((), after) := by
  rw [EndsWith, EndsWith, exec_makeReport_settled hlinkless h]

/-- The file is filled alike wherever it is opened. -/
theorem fillFile_again {r : Except Failure (Tally × String)} {opened' : FileTree}
    (hsame : opened.get? here = opened'.get? here)
    (h : EndsWith (fillFile settings (FileTree.sink here) (candidates.map (settled content)))
      ((), opened) r ((), filled)) :
    ∃ filled', EndsWith (fillFile settings (FileTree.sink here) (candidates.map (settled content)))
      ((), opened') r ((), filled') ∧ filled.get? here = filled'.get? here := by
  have hreads : ∀ c ∈ candidates.map (settled content), c.Reads content (FileTree.SameAt here) := by
    intro c hc s
    obtain ⟨c, -, rfl⟩ := List.mem_map.mp hc
    exact ⟨s, RunsOver.exec_pure _ _, rfl⟩
  have hlines : SameLines content settings.policy settings.policy (candidates.map (settled content))
      (candidates.map (settled content)) Eq := ⟨rfl, .of_eq rfl⟩
  have hstart : FileTree.SameAt here ((), opened) ((), opened') := hsame
  obtain ⟨r₁, s₁, r₂, s₂, hfill, hfill', hr, hs⟩ := twins_fillFile
    (FileTree.equivalence_sameAt here) (FileTree.overlooks_sink here) hreads hreads hlines hstart
  obtain ⟨rfl, rfl⟩ := hfill.unique h
  refine ⟨s₂.2, ?_, hs⟩
  rcases r₁ with failure | ⟨tally, digest⟩ <;> rcases r₂ with failure' | ⟨tally', digest'⟩
  · cases hr
    exact hfill'
  · exact hr.elim
  · exact hr.elim
  · obtain ⟨htally, hdigest⟩ := hr
    cases htally
    cases hdigest
    exact hfill'

/-- A report that was made is made once more by the same run from the tree that it left. -/
theorem makeReport_again (hlinkless : before.Linkless)
    (hdevice : ∀ device,
      before.get? (before.placeOf (temporary settings.output)) ≠ some (.device device))
    (hbefore : ReadWhile settings.output content candidates before)
    (hafter : ReadWhile settings.output content candidates after)
    (h : EndsWith (makeReport settings candidates).run ((), before) (.ok summary) ((), after)) :
    ∃ final, EndsWith (makeReport settings candidates).run ((), after) (.ok summary) ((), final) ∧
      final.working = after.working ∧ ∀ place, final.get? place = after.get? place := by
  rw [endsWith_makeReport_settled hlinkless hbefore] at h
  obtain ⟨tally, digest, here, parents, opened, filled, hsteps, rfl⟩ := endsWith_makeReport_ok.mp h
  obtain ⟨hmade, report, front, last, directory, rfl, hheld, hpublished⟩ :=
    hsteps.published quiet_settled hlinkless hdevice
  have hlinkless' : after.Linkless := (hpublished.leaves hlinkless hmade).linkless hlinkless
  have hreport : filled.get? (directory ++ [last ++ suffix]) = some (.file report) := by
    rw [hheld.2, if_pos rfl, hpublished.isEmpty]
    rfl
  have hopened : opened.get? (directory ++ [last ++ suffix]) =
      (after.set (directory ++ [last ++ suffix]) (.file [])).get?
        (directory ++ [last ++ suffix]) := by
    rw [hpublished.isEmpty, FileTree.get?_set, if_pos rfl]
  obtain ⟨refilled, hfill, hsame⟩ := fillFile_again hopened hsteps.fill
  obtain ⟨held, hrefilled⟩ := appended_of_fillFile quiet_settled hfill
  obtain ⟨final, hrename, hworking, hget⟩ :=
    hpublished.rename_again hrefilled (hsame.symm.trans hreport)
  refine ⟨final, ?_, hworking, hget⟩
  rw [endsWith_makeReport_settled hlinkless' hafter, endsWith_makeReport_ok]
  exact ⟨tally, digest, _, after, _, refilled,
    ⟨hpublished.makeParent_again, hpublished.create_again, hfill, hrename⟩, rfl⟩

end Dump

end JvmSymbols
