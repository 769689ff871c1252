import JvmSymbols.Archive.Fault
import JvmSymbols.FileTree.Instance

/-!
# Runs on a file tree

A run keeps a file tree and may be given up at once; the tree is then as the run left it.
-/

namespace JvmSymbols

abbrev World := ExceptT Archive.Abort (StateM FileTree)

/-- What comes of a run that starts with `tree`, and the tree it leaves behind. -/
def World.runOn {α : Type} (tree : FileTree) (run : World α) :
    Except Archive.Abort α × FileTree :=
  run.run.run tree

end JvmSymbols
