import JvmSymbols.Proofs.Dump.Repeating

/-!
# What a root lists

On a file tree alone, a root is a directory whose files are walked, standard input or an archive
(`Listed`). A dump makes the report on what is listed (`endsWith_dump_ok`).
-/

namespace JvmSymbols

open Dump (Failure)
open FileSystem (Found)

namespace FileTree

variable {tree : FileTree} {root : Path} {here : Location} {node : Node}

theorem endsWith_observe_ok {ε α : Type} {f : FileTree → Except ε α} {a : α}
    {s s' : Unit × FileTree} :
    EndsWith (observe f : ExceptT ε World α).run s (.ok a) s' ↔ f s.2 = .ok a ∧ s = s' := by
  constructor
  · intro h
    exact (endsWith_observe rfl).unique h
  · rintro ⟨h, rfl⟩
    exact endsWith_observe h

theorem map_eq_ok {bytes : Bytes} :
    tree.map root = .ok bytes ↔ ∃ here, tree.node root = .ok (here, .file bytes) := by
  constructor
  · intro h
    rcases hnode : tree.node root with fault | ⟨here, _ | held | target | device⟩ <;>
      rw [map, hnode] at h <;> cases h
    exact ⟨here, rfl⟩
  · rintro ⟨here, hnode⟩
    exact map_of_node hnode

end FileTree

namespace Dump

variable {settings : Settings} {tree : FileTree} {candidates : List (Candidate World)}
  {kind : RootKind} {s' : Unit × FileTree}

/-- What stands at a root says what it is read as. -/
def rootKindOf : Node → RootKind
  | .directory => .directory
  | _ => .archive

theorem endsWith_detectRoot_ok {root : Path} :
    EndsWith (detectRoot root : ExceptT Failure World _).run ((), tree) (.ok kind) s' ↔
      (∃ here node, tree.node root = .ok (here, node) ∧ rootKindOf node = kind) ∧
        ((), tree) = s' := by
  constructor
  · intro h
    obtain ⟨found, s₁, hfound, h⟩ := endsWith_run_bind_ok.mp h
    obtain ⟨hkind, rfl⟩ := FileTree.endsWith_observe_ok.mp (endsWith_run_adapt_ok.mp hfound)
    obtain ⟨here, node, hnode, rfl⟩ := FileTree.kind_eq_ok.mp hkind
    cases node <;> obtain ⟨rfl, rfl⟩ := endsWith_run_pure_ok.mp h <;>
      exact ⟨⟨here, _, hnode, rfl⟩, rfl⟩
  · rintro ⟨⟨here, node, hnode, rfl⟩, rfl⟩
    refine endsWith_run_bind_ok.mpr ⟨FileTree.kindOf node, ((), tree), ?_, ?_⟩
    · refine endsWith_run_adapt_ok.mpr (FileTree.endsWith_observe_ok.mpr ⟨?_, rfl⟩)
      exact FileTree.kind_of_node hnode
    · cases node <;> exact endsWith_run_pure_ok.mpr ⟨rfl, rfl⟩

/-- What a directory lists when its files are walked. -/
theorem endsWith_list (tree : FileTree) (source : DirectorySource) (filter : Filter)
    (hinput : DirectorySource.isStandardInput source.root = false) :
    EndsWith (source.list filter : World _) ((), tree)
      (match tree.walk source.root with
        | .ok found => (.ok (source.select filter found).listed.keys, source.select filter found)
        | .error fault => (.error (.unwalkable source.root fault), .ofRoot source.root))
      ((), tree) := by
  have hwalk : EndsWith (FileSystem.walk source.root : ExceptT FileSystem.WalkFault World _).run
      ((), tree) (tree.walk source.root) ((), tree) := FileTree.endsWith_observe rfl
  rw [DirectorySource.list, hinput, if_neg Bool.false_ne_true]
  refine hwalk.bind ?_
  rcases tree.walk source.root with fault | found <;> exact RunsOver.exec_pure _ _

theorem endsWith_list_input (tree : FileTree) (source : DirectorySource) (filter : Filter)
    (hinput : DirectorySource.isStandardInput source.root = true) :
    EndsWith (source.list filter : World _) ((), tree) (.ok [], .ofRoot source.root)
      ((), tree) := by
  rw [DirectorySource.list, hinput, if_pos rfl]
  exact RunsOver.exec_pure _ _

/-- What the root is found to be, and the candidates that are listed for it. -/
inductive Listed (settings : Settings) (tree : FileTree) : List (Candidate World) → Prop
  | input {here : Location} :
    tree.node settings.root = .ok (here, .directory) →
      DirectorySource.isStandardInput settings.root = true → Listed settings tree []
  | directory {here : Location} {found : List (Path × Found)} {source : DirectorySource} :
    tree.node settings.root = .ok (here, .directory) →
      DirectorySource.isStandardInput settings.root = false →
      tree.walk settings.root = .ok found →
      (DirectorySource.ofRoot settings.root).select settings.filter found = source →
      Listed settings tree (source.candidates source.listed.keys)
  | archive {here : Location} {bytes : Bytes} {opened source : ArchiveSource} :
    tree.node settings.root = .ok (here, .file bytes) →
      ArchiveSource.open? settings.root bytes = .ok opened →
      opened.select settings.filter = source →
      Listed settings tree (source.candidates source.listed.keys)

theorem listed_of_listRoot (h : EndsWith (listRoot settings : ExceptT Failure World _).run
    ((), tree) (.ok candidates) s') : Listed settings tree candidates ∧ ((), tree) = s' := by
  obtain ⟨kind, s₁, hkind, h⟩ := endsWith_run_bind_ok.mp h
  obtain ⟨⟨here, node, hnode, hroot⟩, rfl⟩ := endsWith_detectRoot_ok.mp hkind
  cases kind with
  | directory =>
    obtain rfl : node = .directory := by
      cases node <;> first | rfl | cases hroot
    obtain ⟨⟨keys, source⟩, s₂, hlist, h⟩ := endsWith_run_bind_ok.mp h
    obtain ⟨listed, s₃, hkeys, h⟩ := endsWith_run_bind_ok.mp h
    obtain ⟨rfl, rfl⟩ := endsWith_run_mk_ok.mp hkeys
    obtain ⟨rfl, rfl⟩ := endsWith_run_pure_ok.mp h
    rw [endsWith_run_lift_ok] at hlist
    rcases hinput : DirectorySource.isStandardInput settings.root with _ | _
    · obtain ⟨hsource, rfl⟩ := hlist.unique (endsWith_list tree _ settings.filter hinput)
      rcases hwalk : tree.walk settings.root with fault | found <;>
        simp only [DirectorySource.ofRoot, hwalk] at hsource <;> cases hsource
      exact ⟨.directory hnode hinput hwalk rfl, rfl⟩
    · obtain ⟨hsource, rfl⟩ := hlist.unique (endsWith_list_input tree _ settings.filter hinput)
      cases hsource
      exact ⟨.input hnode hinput, rfl⟩
  | archive =>
    obtain ⟨bytes, s₂, hbytes, h⟩ := endsWith_run_bind_ok.mp h
    obtain ⟨hmap, rfl⟩ := FileTree.endsWith_observe_ok.mp (endsWith_run_adapt_ok.mp hbytes)
    obtain ⟨_, hfile⟩ := FileTree.map_eq_ok.mp hmap
    obtain ⟨opened, s₃, hopened, h⟩ := endsWith_run_bind_ok.mp h
    obtain ⟨hopen, rfl⟩ := endsWith_run_mk_ok.mp hopened
    obtain ⟨rfl, rfl⟩ := endsWith_run_pure_ok.mp h
    exact ⟨.archive hfile hopen rfl, rfl⟩

theorem Listed.endsWith (h : Listed settings tree candidates) :
    EndsWith (listRoot settings : ExceptT Failure World _).run ((), tree) (.ok candidates)
      ((), tree) := by
  cases h with
  | input hnode hinput =>
    have hkind := endsWith_detectRoot_ok.mpr ⟨⟨_, _, hnode, rfl⟩, rfl⟩
    have hlist := endsWith_list_input tree (.ofRoot settings.root) settings.filter hinput
    refine endsWith_run_bind_ok.mpr ⟨_, _, hkind, endsWith_run_bind_ok.mpr ⟨_, _, hlist.lift, ?_⟩⟩
    exact endsWith_run_bind_ok.mpr ⟨_, _, endsWith_run_mk_ok.mpr ⟨rfl, rfl⟩,
      endsWith_run_pure_ok.mpr ⟨rfl, rfl⟩⟩
  | directory hnode hinput hwalk hsource =>
    have hkind := endsWith_detectRoot_ok.mpr ⟨⟨_, _, hnode, rfl⟩, rfl⟩
    have hlist := endsWith_list tree (.ofRoot settings.root) settings.filter hinput
    simp only [DirectorySource.ofRoot, hwalk] at hlist
    refine endsWith_run_bind_ok.mpr ⟨_, _, hkind, endsWith_run_bind_ok.mpr ⟨_, _, hlist.lift, ?_⟩⟩
    exact endsWith_run_bind_ok.mpr ⟨_, _, endsWith_run_mk_ok.mpr ⟨rfl, rfl⟩,
      endsWith_run_pure_ok.mpr ⟨hsource ▸ rfl, rfl⟩⟩
  | archive hnode hopen hsource =>
    have hkind := endsWith_detectRoot_ok.mpr ⟨⟨_, _, hnode, rfl⟩, rfl⟩
    have hmap := FileTree.endsWith_observe_ok (f := (·.map settings.root)) (s := ((), tree)).mpr
      ⟨FileTree.map_of_node hnode, rfl⟩
    refine endsWith_run_bind_ok.mpr ⟨_, _, hkind,
      endsWith_run_bind_ok.mpr ⟨_, _, endsWith_run_adapt_ok.mpr hmap, ?_⟩⟩
    exact endsWith_run_bind_ok.mpr ⟨_, _, endsWith_run_mk_ok.mpr ⟨hopen, rfl⟩,
      endsWith_run_pure_ok.mpr ⟨hsource ▸ rfl, rfl⟩⟩

/-- A dump lists the candidates of its root and makes the report on them. -/
theorem endsWith_dump_ok {summary : Summary} {after : FileTree} :
    EndsWith (dump settings : ExceptT Failure World _).run ((), tree) (.ok summary) ((), after) ↔
      ∃ candidates, Listed settings tree candidates ∧
        EndsWith (makeReport settings candidates).run ((), tree) (.ok summary) ((), after) := by
  have htime (t : FileTree) : EndsWith (ExceptT.lift (FileSystem.milliseconds : World Nat) :
      ExceptT Failure World Nat).run ((), t) (.ok 0) ((), t) := RunsOver.exec_pure _ _
  -- no time passes, and a report is made in none
  have hzero {candidates : List (Candidate World)} {summary : Summary} {before after : FileTree}
      (h : EndsWith (makeReport settings candidates).run ((), before) (.ok summary) ((), after)) :
      { summary with durationMs := 0 - 0 } = summary := by
    obtain ⟨_, _, _, _, _, _, -, rfl⟩ := endsWith_makeReport_ok.mp h
    rfl
  rw [dump_eq]
  constructor
  · intro h
    obtain ⟨start, s₁, hstart, h⟩ := endsWith_run_bind_ok.mp h
    obtain ⟨hstart, rfl⟩ := (htime tree).unique hstart
    cases hstart
    obtain ⟨made, ⟨_, made'⟩, hsource, h⟩ := endsWith_run_bind_ok.mp h
    obtain ⟨stop, s₂, hstop, h⟩ := endsWith_run_bind_ok.mp h
    obtain ⟨hstop, rfl⟩ := (htime made').unique hstop
    cases hstop
    obtain ⟨hsummary, hafter⟩ := endsWith_run_pure_ok.mp h
    cases hafter
    obtain ⟨candidates, s₃, hlist, hreport⟩ := endsWith_run_bind_ok.mp hsource
    obtain ⟨hlisted, rfl⟩ := listed_of_listRoot hlist
    rw [hzero hreport] at hsummary
    exact ⟨candidates, hlisted, hsummary ▸ hreport⟩
  · rintro ⟨candidates, hlisted, hreport⟩
    have hsource : EndsWith (dumpSource settings (listRoot settings)).run ((), tree) (.ok summary)
        ((), after) :=
      endsWith_run_bind_ok.mpr ⟨candidates, _, hlisted.endsWith, hreport⟩
    refine endsWith_run_bind_ok.mpr ⟨0, _, htime tree, endsWith_run_bind_ok.mpr ⟨_, _, hsource, ?_⟩⟩
    refine endsWith_run_bind_ok.mpr ⟨0, _, htime after, endsWith_run_pure_ok.mpr ⟨?_, rfl⟩⟩
    exact hzero hreport

end Dump

end JvmSymbols
