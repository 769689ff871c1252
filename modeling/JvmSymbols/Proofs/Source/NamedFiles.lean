import JvmSymbols.FileTree.Basic
import JvmSymbols.Proofs.FileSystem.Descending

/-!
# Files by their names
-/

namespace JvmSymbols

/-- A file by the names that lead to it, and what it holds. -/
structure NamedFile where
  names : List String
  content : Bytes
  deriving DecidableEq, Repr

namespace NamedFile

def key (f : NamedFile) : String := keyOf f.names

/-- Where the file is, seen from where its names start. -/
def location (f : NamedFile) : Location := f.names.map Utf8.encode

def path (root : Path) (f : NamedFile) : Path := root.descend f.location

end NamedFile

/-- The files have clean names, and no two of them the same. -/
structure AreFiles (files : List NamedFile) : Prop where
  ne_nil {f : NamedFile} : f ∈ files → f.names ≠ []
  clean {f : NamedFile} : f ∈ files → ∀ name ∈ f.names, IsClean name
  distinct {f g : NamedFile} : f ∈ files → g ∈ files → f.names = g.names → f = g

namespace AreFiles

variable {files : List NamedFile} {f g : NamedFile}

theorem eq_of_key (h : AreFiles files) (hf : f ∈ files) (hg : g ∈ files) (hkey : f.key = g.key) :
    f = g :=
  h.distinct hf hg <| keyOf_injective (fun name hname => (h.clean hf name hname).slash)
    (fun name hname => (h.clean hg name hname).slash) (h.ne_nil hf) (h.ne_nil hg) hkey

theorem isProper (h : AreFiles files) (hf : f ∈ files) : ∀ name ∈ f.location, Path.IsProper name :=
  List.forall_mem_map.mpr fun name hname => (h.clean hf name hname).isProper

theorem location_ne_nil (h : AreFiles files) (hf : f ∈ files) : f.location ≠ [] :=
  mt List.map_eq_nil_iff.mp (h.ne_nil hf)

theorem notMem_nul (h : AreFiles files) (hf : f ∈ files) : ∀ name ∈ f.location, 0 ∉ name :=
  List.forall_mem_map.mpr fun name hname => List.count_eq_zero.mp <|
    (Utf8.count_encode (d := '\x00') (by decide) name).trans
      (List.count_eq_zero.mpr (h.clean hf name hname).nul)

end AreFiles

end JvmSymbols
