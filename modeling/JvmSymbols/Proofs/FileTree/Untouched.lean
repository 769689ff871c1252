import JvmSymbols.Proofs.FileTree.Making
import JvmSymbols.Proofs.FileTree.Reaching
import JvmSymbols.Proofs.FileTree.Replacing

/-!
# Files that a run leaves alone

A file is found under its path for as long as it and the way to it are left alone (`node_kept`):
directories are made where nothing was, and a file that is opened for writing is another one
(`read_appended`).
-/

namespace JvmSymbols.FileTree

open FileSystem (Fault)

variable {tree tree' tree'' : FileTree} {aim : Aim} {links : Nat} {here place : Location}
  {path : Path} {parts : List Name} {bytes : Bytes}

/-- A file is still found under its path if it and the way to it are still there. -/
theorem node_kept (h : tree.node path = .ok (place, .file bytes)) (hways : Ways tree tree')
    (hworking : tree'.working = tree.working) (hplace : tree'.get? place = tree.get? place) :
    tree'.node path = .ok (place, .file bytes) := by
  rw [node_eq_ok, hworking]
  obtain ⟨hcheck, hreaches⟩ := node_eq_ok.mp h
  exact ⟨hcheck, hreaches.kept hways (hplace.trans (get?_of_node h))⟩

/-! ## Making directories and writing a file -/

theorem Made.get?_eq {paths : List Path} (h : Made paths tree tree')
    (hplace : tree.get? place ≠ none) : tree'.get? place = tree.get? place := by
  induction h with
  | refl => rfl
  | tail _ hstep ih =>
    obtain ⟨made, -, hmade⟩ := hstep
    obtain ⟨-, directory, last, hmakes⟩ := exists_makes hmade
    rw [hmakes.get?, if_neg, ih]
    rintro rfl
    exact hplace (ih.symm.trans hmakes.missing)

theorem Made.eq_of_isNone {paths : List Path} (h : Made paths tree tree')
    (hnone : ∀ made ∈ paths, (tree.makeDirectory made).toOption.isNone = true) : tree' = tree := by
  induction h with
  | refl => rfl
  | tail _ hstep ih =>
    obtain ⟨made, hmem, hmade⟩ := hstep
    have hfails := hnone made hmem
    rw [← ih, hmade] at hfails
    cases hfails

/-- Opening a file concerns no other place. -/
theorem opened_of_create (h : tree.create path = .ok (here, tree')) : Opened here tree tree' := by
  rw [create] at h
  rcases hresolve : tree.resolve .file path with fault | ⟨place, node⟩ | place <;>
    rw [hresolve] at h
  · cases h
  · have hstands := (resolve_eq_ok.mp hresolve).2.stands
    cases node with
    | directory => cases h
    | link target => cases h
    | file bytes =>
      cases h
      have hfile := hstands.resolve_left (by simp)
      exact .of_set (by simp [IsLeaf, hfile])
    | device device =>
      cases h
      exact .of_device (hstands.resolve_left (by simp))
  · cases h
    have hnone : tree.get? here = none := (resolve_eq_ok.mp hresolve).2.stands
    exact .of_set (by simp [IsLeaf, hnone])

/-- A file is read as before while another one is written. -/
theorem read_appended {paths : List Path} {written : Path} {opened : FileTree} {held : Bytes}
    (h : tree.node path = .ok (place, .file bytes)) (hmade : Made paths tree tree')
    (hcreate : tree'.create written = .ok (here, opened)) (hother : place ≠ here)
    (hheld : Appended here held opened tree'') : tree''.read path = .ok bytes := by
  have hexists : tree.get? place ≠ none := by
    rw [get?_of_node h]
    exact nofun
  have hmoved := node_kept h hmade.ways.1 hmade.ways.2 (hmade.get?_eq hexists)
  have hsame := (opened_of_create hcreate).appended hheld
  exact read_of_node (node_kept hmoved hsame.ways hsame.working (hsame.elsewhere hother))

end JvmSymbols.FileTree
