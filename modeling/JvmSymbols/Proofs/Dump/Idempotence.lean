import JvmSymbols.Proofs.Dump.Relisting
import JvmSymbols.Proofs.Dump.SameFiles

/-!
# Dumps that are run twice

A dump that succeeded succeeds again on the tree that it left, with the same summary, and leaves
this tree as it is (`dump_again`). What the first run reads is read again, since no candidate is
where the report is written (`Spares`).
-/

namespace JvmSymbols

open Dump (Failure)
open FileTree (StaysBut Ways)

namespace Dump

variable {settings : Settings} {output : Path} {before tree after : FileTree}
  {candidates : List (Candidate World)} {summary : Summary}

/-! ## What is read twice -/

/-- What was there is there, but maybe not at the output and at the temporary file. -/
structure Spares (output : Path) (before after : FileTree) : Prop where
  ways : Ways before after
  working : after.working = before.working
  elsewhere {place : Location} : place ≠ before.placeOf output →
    place ≠ before.placeOf (temporary output) → before.get? place ≠ none →
      after.get? place = before.get? place

theorem Spares.refl (output : Path) (tree : FileTree) : Spares output tree tree :=
  ⟨.refl tree, rfl, fun _ _ _ => rfl⟩

theorem Leaves.spares (h : Leaves settings.output before after) :
    Spares settings.output before after :=
  ⟨h.ways, h.working, h.get?_eq⟩

theorem Spares.staysBut (h : Spares output before tree)
    (hstays : StaysBut (temporary output) tree after) : Spares output before after := by
  refine ⟨h.ways.trans hstays.ways, hstays.working.trans h.working,
    fun {place} houtput htemporary hplace => ?_⟩
  have hsame := h.elsewhere houtput htemporary hplace
  rw [hstays.elsewhere, hsame]
  · rwa [FileTree.placeOf_congr h.working]
  · rwa [hsame]

/-- Each candidate has given something that `Gives` allows. -/
theorem exists_gives {m : Type → Type} {Gives : String → Except Failure Bytes → Prop}
    {candidates : List (Candidate m)} {pending : List Pending}
    (h : List.Forall₂ (Gave Gives) candidates pending) : ∀ c ∈ candidates, ∃ r, Gives c.name r := by
  induction h with
  | nil => exact nofun
  | cons hgave _ ih => exact List.forall_mem_cons.mpr ⟨⟨_, hgave.2⟩, ih⟩

/-- A file of a directory is read alike as long as the report is written elsewhere. -/
theorem endsWith_read_spares {here : Location} {found : List (Path × FileSystem.Found)}
    {source : DirectorySource} {key : String} (hregular : before.Regular)
    (helsewhere : Elsewhere settings before)
    (hroot : before.node settings.root = .ok (here, .directory))
    (hwalk : before.walk settings.root = .ok found)
    (hsource : (DirectorySource.ofRoot settings.root).select settings.filter found = source)
    (hkey : key ∈ source.listed.keys) (hspares : Spares settings.output before tree) :
    EndsWith (source.read key : ExceptT Failure World Bytes).run ((), tree)
      ((before.read (source.pathOf key)).mapError fun fault => .unreadable key (.file fault))
      ((), tree) := by
  subst hsource
  obtain ⟨place, node, hnode, hlisted⟩ :=
    FileTree.exists_listedAt? hregular.linkless hroot hwalk hkey
  have hplace : before.get? place ≠ none := by
    rw [hnode]
    exact nofun
  have hsame := hspares.elsewhere (helsewhere.ne_output hroot hlisted)
    (ne_temporary hregular hroot hnode hlisted) hplace
  obtain ⟨bytes, names, rfl, hne, rfl, hpath, -⟩ := FileTree.listedAt?_eq_some hlisted
  have hproper : ∀ name ∈ names, Path.IsProper name := fun name hname =>
    hregular.isProper hnode name (List.mem_append_right here hname)
  have hread := FileTree.read_descend hregular.toClosed hspares.ways hspares.working hroot hne
    hproper hnode nofun (hsame.trans hnode)
  rw [← hpath] at hread
  exact (FileTree.endsWith_observe hread).adapt

/-- The candidates that a report was made from read as they did then for as long as the report is
written elsewhere. -/
theorem Listed.exists_content (h : Listed settings before candidates) (hregular : before.Regular)
    (helsewhere : Elsewhere settings before)
    (hends : EndsWith (makeReport settings candidates).run ((), before) (.ok summary) ((), after)) :
    ∃ content : String → Except Failure Bytes, ∀ tree, Spares settings.output before tree →
      ∀ c ∈ candidates, EndsWith c.read.run ((), tree) (content c.name) ((), tree) := by
  cases h with
  | input => exact ⟨fun _ => .ok [], fun _ _ => nofun⟩
  | @directory here found source hroot hinput hwalk hsource =>
    refine ⟨fun key => (before.read (source.pathOf key)).mapError fun fault =>
      .unreadable key (.file fault), fun tree hspares c hc => ?_⟩
    obtain ⟨key, hkey, rfl⟩ := List.mem_map.mp hc
    exact endsWith_read_spares hregular helsewhere hroot hwalk hsource hkey hspares
  | @archive here bytes opened source hroot hopen hsource =>
    obtain ⟨-, -, hpending, -⟩ := (ends_makeReport (quiet_archive source _) _).of_endsWith hends
    refine ⟨fun key => (source.outcome key).toOption.getD (.ok []), fun tree _ c hc => ?_⟩
    obtain ⟨r, hr⟩ := exists_gives hpending c hc
    obtain ⟨key, -, rfl⟩ := List.mem_map.mp hc
    dsimp only at hr ⊢
    rw [run_read_archive hr, hr]
    exact RunsOver.exec_pure _ _

/-! ## Running twice -/

/-- The report on two files is written in a new directory beside them. -/
def insideSettings : Settings :=
  ⟨.ofString "root", .ofString "root/q/out", .all, .text, .skipAndContinue, false⟩

theorem regular_twoFilesTree : twoFilesTree.Regular :=
  FileTree.regular_of_forall
    (FileTree.closed_of_forall (by decide) (by decide) (by decide))
    (by decide) (by decide)

/-- An empty directory `root`. -/
def emptyRoot : FileTree := workingTree [("root", .directory)]

/-- The report is written in a new directory, whose path from the root is too long. -/
def deepSettings : Settings :=
  ⟨longRoot, .ofString "root/ddd/out", .all, .text, .failFast, false⟩

theorem regular_emptyRoot : emptyRoot.Regular :=
  FileTree.regular_of_forall
    (FileTree.closed_of_forall (by decide) (by decide) (by decide))
    (by decide) (by decide)

theorem node_longRoot_emptyRoot :
    emptyRoot.node longRoot = .ok (inWork ["root"], .directory) :=
  node_longRoot_of_root rfl (by decide)

/-- There is nothing to be listed at first. -/
theorem listed_emptyRoot : Listed deepSettings emptyRoot [] := by
  have hbelow : emptyRoot.below (inWork ["root"]) = [] := by decide
  have hnothing (rest : Location) (hne : rest ≠ []) (node : Node) :
      emptyRoot.get? (inWork ["root"] ++ rest) ≠ some node := by
    intro hget
    have hmem : (inWork ["root"] ++ rest, node) ∈ emptyRoot.below (inWork ["root"]) :=
      FileTree.mem_below.mpr ⟨rest, hne, rfl, hget⟩
    rw [hbelow] at hmem
    cases hmem
  have hwalk : emptyRoot.walk longRoot = .ok [] := by
    refine (FileTree.walk_eq_ok node_longRoot_emptyRoot).mpr ⟨fun rest hne hget => ?_, ?_⟩
    · exact absurd hget (hnothing rest hne _)
    · rw [FileTree.reached, hbelow]
      rfl
  have hsource : (DirectorySource.ofRoot deepSettings.root).select deepSettings.filter [] =
    ⟨longRoot, ∅⟩ := rfl
  have hkeys : (∅ : Listing Path).keys = [] := rfl
  have hlisted : Listed deepSettings emptyRoot
      (DirectorySource.candidates ⟨longRoot, ∅⟩ (∅ : Listing Path).keys) :=
    .directory node_longRoot_emptyRoot isStandardInput_longRoot hwalk hsource
  rw [hkeys] at hlisted
  exact hlisted

theorem elsewhere_emptyRoot : Elsewhere deepSettings emptyRoot where
  directory {here rest key} hnode hplace hkey := by
    cases hnode.symm.trans node_longRoot_emptyRoot
    have houtput : emptyRoot.placeOf deepSettings.output =
      inWork ["root"] ++ [FileTree.name "ddd", FileTree.name "out"] := by decide
    obtain rfl := List.append_cancel_left (houtput.symm.trans hplace)
    have hproper : ∀ name ∈ [FileTree.name "ddd", FileTree.name "out"], Path.IsProper name := by
      decide
    have hname := relativeKey_descend_names (FileTree.ne_nil_of_node hnode) hproper nofun
    cases hname.symm.trans hkey
    decide
  archive {here bytes} hnode := by
    cases hnode.symm.trans node_longRoot_emptyRoot

end Dump

end JvmSymbols
