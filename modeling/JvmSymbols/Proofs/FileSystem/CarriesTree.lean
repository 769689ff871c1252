import JvmSymbols.FileTree.World
import JvmSymbols.Proofs.FileTree.Making
import JvmSymbols.Proofs.FileTree.Replacing
import JvmSymbols.Proofs.FileSystem.SinkRuns

/-!
# File systems with faults

What is proved of runs holds for every file system that keeps a file tree in its state
(`CarriesTree`). Each of its operations does to the tree what `FileTree` says, or fails for whatever
cause and leaves the tree as it is; a write may take only part of what it is offered.
-/

namespace JvmSymbols

open Archive (Abort)
open FileSystem (Fault)

/-- Writes to the sink go to the end of the file that is open at `here`. -/
structure Sink.AppendsTo {m : Type → Type} [Monad m] [MonadExceptOf Abort m] {own σ : Type}
    [RunsOver own σ m] (sink : Sink m) (tree : σ → FileTree) (here : Location) : Prop where
  write (bytes : Bytes) (s : own × σ) : Ends (sink.write bytes).run s (fun r s' =>
    match r with
    | .ok n => n ≤ bytes.length ∧ (tree s.2).append here (bytes.take n) = .ok (tree s'.2)
    | .error _ => tree s'.2 = tree s.2) fun _ => False
  flush (s : own × σ) : Ends sink.flush.run s (fun _ s' => tree s'.2 = tree s.2) fun _ => False

class CarriesTree (own σ : outParam Type) (m : Type → Type) [Monad m] [MonadExceptOf Abort m]
    [RunsOver own σ m] [FileSystem m] where
  tree : σ → FileTree
  kind (path : Path) (s : own × σ) :
    Ends (FileSystem.kind path : ExceptT Fault m _).run s
      (fun _ s' => tree s'.2 = tree s.2) fun _ => False
  read (path : Path) (s : own × σ) :
    Ends (FileSystem.read path : ExceptT Fault m _).run s
      (fun _ s' => tree s'.2 = tree s.2) fun _ => False
  map (path : Path) (s : own × σ) :
    Ends (FileSystem.map path : ExceptT Fault m _).run s
      (fun _ s' => tree s'.2 = tree s.2) fun _ => False
  walk (root : Path) (s : own × σ) :
    Ends (FileSystem.walk root : ExceptT FileSystem.WalkFault m _).run s
      (fun _ s' => tree s'.2 = tree s.2) fun _ => False
  milliseconds (s : own × σ) :
    Ends (FileSystem.milliseconds : m Nat) s (fun _ s' => tree s'.2 = tree s.2) fun _ => False
  makeDirectory (path : Path) (s : own × σ) :
    Ends (FileSystem.makeDirectory path : ExceptT Fault m _).run s (fun r s' =>
      match r with
      | .ok _ => (tree s.2).makeDirectory path = .ok (tree s'.2)
      | .error _ => tree s'.2 = tree s.2) fun _ => False
  create (path : Path) (s : own × σ) :
    Ends (FileSystem.create path : ExceptT Fault m _).run s (fun r s' =>
      match r with
      | .ok sink => ∃ here, (tree s.2).create path = .ok (here, tree s'.2) ∧ sink.AppendsTo tree here
      | .error _ => tree s'.2 = tree s.2) fun _ => False
  remove (path : Path) (s : own × σ) :
    Ends (FileSystem.remove path : ExceptT Fault m _).run s (fun r s' =>
      match r with
      | .ok _ => (tree s.2).remove path = .ok (tree s'.2)
      | .error _ => tree s'.2 = tree s.2) fun _ => False
  rename (old new : Path) (s : own × σ) :
    Ends (FileSystem.rename old new : ExceptT Fault m _).run s (fun r s' =>
      match r with
      | .ok _ => (tree s.2).rename old new = .ok (tree s'.2)
      | .error _ => tree s'.2 = tree s.2) fun _ => False

theorem exists_of_return_eq_ok {ε α β : Type} {x : Except ε α} {f : α → β} {b : β}
    (h : (do return f (← x)) = Except.ok b) : ∃ a, x = .ok a ∧ f a = b := by
  cases x with
  | error e => cases h
  | ok a => exact ⟨a, rfl, Except.ok.inj h⟩

/-! ## A file tree alone -/

namespace FileTree

theorem ends_observe {ε α : Type} (f : FileTree → Except ε α) (s : Unit × FileTree) :
    Ends (observe f : ExceptT ε World α).run s (fun _ s' => s'.2 = s.2) fun _ => False := rfl

theorem endsWith_observe {ε α : Type} {f : FileTree → Except ε α} {r : Except ε α}
    {s : Unit × FileTree} (h : f s.2 = r) : EndsWith (observe f : ExceptT ε World α).run s r s :=
  h ▸ rfl

theorem exec_modifyGet {ε α : Type} (step : FileTree → Except ε α × FileTree) (s : Unit × FileTree) :
    RunsOver.exec (ExceptT.mk (modifyGetThe FileTree step) : ExceptT ε World α).run s =
      (.ok ((step s.2).1, ()), (step s.2).2) := rfl

theorem ends_update {α : Type} (f : FileTree → Except Fault (α × FileTree)) (s : Unit × FileTree) :
    Ends (update f : ExceptT Fault World α).run s (fun r s' =>
      match r with
      | .ok a => f s.2 = .ok (a, s'.2)
      | .error _ => s'.2 = s.2) fun _ => False := by
  rw [Ends, update, exec_modifyGet]
  rcases h : f s.2 with fault | ⟨a, tree⟩
  · rfl
  · rfl

theorem ends_change (f : FileTree → Except Fault FileTree) (s : Unit × FileTree) :
    Ends (change f : ExceptT Fault World Unit).run s (fun r s' =>
      match r with
      | .ok _ => f s.2 = .ok s'.2
      | .error _ => s'.2 = s.2) fun _ => False := by
  refine (ends_update _ s).mono fun r s' hr => ?_
  cases r with
  | error fault => exact hr
  | ok _ =>
    obtain ⟨tree, htree, hb⟩ := exists_of_return_eq_ok hr
    exact (Prod.mk.inj hb).2 ▸ htree

theorem endsWith_update {α : Type} {f : FileTree → Except Fault (α × FileTree)} {s : Unit × FileTree}
    {a : α} {tree : FileTree} (h : f s.2 = .ok (a, tree)) :
    EndsWith (update f : ExceptT Fault World α).run s (.ok a) ((), tree) := by
  rw [EndsWith, update, exec_modifyGet, h]

theorem endsWith_update_error {α : Type} {f : FileTree → Except Fault (α × FileTree)}
    {s : Unit × FileTree} {fault : Fault} (h : f s.2 = .error fault) :
    EndsWith (update f : ExceptT Fault World α).run s (.error fault) s := by
  rw [EndsWith, update, exec_modifyGet, h]

theorem endsWith_change {f : FileTree → Except Fault FileTree} {s : Unit × FileTree}
    {tree : FileTree} (h : f s.2 = .ok tree) :
    EndsWith (change f : ExceptT Fault World Unit).run s (.ok ()) ((), tree) := by
  refine endsWith_update ?_
  rw [h]
  rfl

theorem endsWith_change_error {f : FileTree → Except Fault FileTree} {s : Unit × FileTree}
    {fault : Fault} (h : f s.2 = .error fault) :
    EndsWith (change f : ExceptT Fault World Unit).run s (.error fault) s := by
  refine endsWith_update_error ?_
  rw [h]
  rfl

theorem appendsTo_sink (here : Location) : (sink here : Sink World).AppendsTo id here where
  write bytes s := by
    refine (ends_update _ s).mono fun r s' hr => ?_
    cases r with
    | error fault => exact hr
    | ok n =>
      obtain ⟨tree, htree, hb⟩ := exists_of_return_eq_ok hr
      obtain ⟨rfl, rfl⟩ := Prod.mk.inj hb
      refine ⟨Nat.le_refl _, ?_⟩
      rw [List.take_length]
      exact htree
  flush s := rfl

instance : CarriesTree Unit FileTree World where
  tree := id
  kind _ := ends_observe _
  read _ := ends_observe _
  map _ := ends_observe _
  walk _ := ends_observe _
  milliseconds _ := rfl
  makeDirectory _ := ends_change _
  create path s := by
    refine ends_run_bind.mpr ((ends_update _ s).mono fun r s' hr => ?_)
    cases r with
    | error fault => exact hr
    | ok here => exact ends_run_pure.mpr ⟨here, hr, appendsTo_sink here⟩
  remove _ := ends_change _
  rename _ _ := ends_change _

end FileTree

end JvmSymbols
