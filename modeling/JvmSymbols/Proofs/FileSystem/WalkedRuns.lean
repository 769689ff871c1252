import JvmSymbols.Dump.AnyOrder
import JvmSymbols.Proofs.FileSystem.CarriesTree

/-!
# Runs with a walk of one's own

Runs on a file tree of which the directories are walked as `walk` says.
-/

namespace JvmSymbols.WalkedBy

open Dump (Failure)
open FileSystem (Found WalkFault)

variable {walk : Walk} {tree : FileTree}

instance : RunsOver Unit FileTree (WalkedBy walk) :=
  inferInstanceAs (RunsOver Unit FileTree World)

instance : CarriesTree Unit FileTree (WalkedBy walk) where
  tree := id
  kind := CarriesTree.kind (m := World)
  read := CarriesTree.read (m := World)
  map := CarriesTree.map (m := World)
  walk _ := FileTree.ends_observe _
  milliseconds := CarriesTree.milliseconds (m := World)
  makeDirectory := CarriesTree.makeDirectory (m := World)
  create := CarriesTree.create (m := World)
  remove := CarriesTree.remove (m := World)
  rename := CarriesTree.rename (m := World)

theorem endsWith_observe {ε α : Type} {f : FileTree → Except ε α} {r : Except ε α}
    (h : f tree = r) :
    EndsWith (FileTree.observe f : ExceptT ε (WalkedBy walk) α).run ((), tree) r ((), tree) :=
  h ▸ rfl

/-- What was found is listed, whatever was listed before. -/
theorem endsWith_list {source : DirectorySource} {found : List (Path × Found)} (filter : Filter)
    (hinput : DirectorySource.isStandardInput source.root = false)
    (hwalk : walk tree source.root = .ok found) :
    EndsWith (source.list filter : WalkedBy walk _) ((), tree)
      (.ok (source.select filter found).listed.keys, source.select filter found) ((), tree) := by
  have hfound : EndsWith (FileSystem.walk source.root : ExceptT WalkFault (WalkedBy walk) _).run
      ((), tree) (.ok found) ((), tree) := endsWith_observe hwalk
  rw [EndsWith, DirectorySource.list, hinput, if_neg Bool.false_ne_true, RunsOver.exec_bind, hfound]
  exact RunsOver.exec_pure _ _

/-- A key is read by its path. -/
theorem endsWith_read (walk : Walk) (tree : FileTree) (source : DirectorySource) (key : String) :
    EndsWith (source.read key : ExceptT Failure (WalkedBy walk) Bytes).run ((), tree)
      ((tree.read (source.pathOf key)).mapError fun fault => .unreadable key (.file fault))
      ((), tree) := by
  have hread : EndsWith (FileSystem.read (source.pathOf key) :
      ExceptT FileSystem.Fault (WalkedBy walk) _).run ((), tree)
      (tree.read (source.pathOf key)) ((), tree) := endsWith_observe rfl
  exact hread.adapt

end JvmSymbols.WalkedBy
