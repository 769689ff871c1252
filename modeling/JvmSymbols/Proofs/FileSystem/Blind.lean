import JvmSymbols.Proofs.FileSystem.CarriesTree
import JvmSymbols.Proofs.Twins

/-!
# What a file system does not look at

A file system may be kept beside states of its users, such as the trace of a source. Its operations
do not look at them (`blindTo_aside`).
-/

namespace JvmSymbols

open Archive (Abort)
open FileSystem (Fault)

variable {m : Type → Type} [Monad m] [MonadExceptOf Abort m] {own σ τ : Type} [RunsOver own σ m]

/-- The file system does not look at what states differ in that are the `Same`. -/
structure FileSystem.BlindTo [FileSystem m] [CarriesTree own σ m]
    (Same : own × σ → own × σ → Prop) : Prop where
  equivalence : Equivalence Same
  tree {s t : own × σ} : Same s t → CarriesTree.tree m s.2 = CarriesTree.tree m t.2
  kind (path : Path) : Overlooks Same (FileSystem.kind path : ExceptT Fault m _).run
  makeDirectory (path : Path) :
    Overlooks Same (FileSystem.makeDirectory path : ExceptT Fault m _).run
  create (path : Path) {s t : own × σ} : Same s t →
    BothEnd (FileSystem.create path : ExceptT Fault m _).run s
      (FileSystem.create path : ExceptT Fault m _).run t
      (Alike (Twins fun sink sink' => sink = sink' ∧ sink.Overlooks Same) Same)
  remove (path : Path) : Overlooks Same (FileSystem.remove path : ExceptT Fault m _).run
  rename (old new : Path) : Overlooks Same (FileSystem.rename old new : ExceptT Fault m _).run

/-- No file system tells equal states apart. -/
theorem FileSystem.blindTo_eq [FileSystem m] [CarriesTree own σ m] :
    FileSystem.BlindTo (m := m) Eq where
  equivalence := eq_equivalence
  tree h := by rw [h]
  kind path := overlooks_eq fun s => (CarriesTree.kind path s).ends
  makeDirectory path := overlooks_eq fun s => (CarriesTree.makeDirectory path s).ends
  create path {s t} hst := by
    cases hst
    obtain ⟨r, s', hr, hcreate⟩ := (CarriesTree.create (m := m) path s).exists_endsWith
    refine ⟨r, s', r, s', hr, hr, ?_, rfl⟩
    cases r with
    | error fault => rfl
    | ok sink =>
      obtain ⟨here, -, hsink⟩ := hcreate
      exact ⟨rfl, fun bytes => overlooks_eq fun s => (hsink.write bytes s).ends,
        overlooks_eq fun s => (hsink.flush s).ends⟩
  remove path := overlooks_eq fun s => (CarriesTree.remove path s).ends
  rename old new := overlooks_eq fun s => (CarriesTree.rename old new s).ends

namespace FileTree

theorem observe_eq_lift {ε α : Type} (f : FileTree → Except ε α) :
    (observe f : ExceptT ε (StateT τ World) α) = Sink.lift (observe f : ExceptT ε World α) := rfl

theorem update_eq_lift {α : Type} (f : FileTree → Except Fault (α × FileTree)) :
    (update f : ExceptT Fault (StateT τ World) α) = Sink.lift (update f : ExceptT Fault World α) := rfl

theorem ends_observe_beside {ε α : Type} (f : FileTree → Except ε α) (p : (τ × Unit) × FileTree) :
    Ends (observe f : ExceptT ε (StateT τ World) α).run p (fun _ p' => p'.2 = p.2)
      fun _ => False := by
  rw [observe_eq_lift]
  exact ends_sink_lift.mpr (ends_observe f (p.1.2, p.2))

theorem ends_update_beside {α : Type} (f : FileTree → Except Fault (α × FileTree))
    (p : (τ × Unit) × FileTree) :
    Ends (update f : ExceptT Fault (StateT τ World) α).run p (fun r p' =>
      match r with
      | .ok a => f p.2 = .ok (a, p'.2)
      | .error _ => p'.2 = p.2) fun _ => False := by
  rw [update_eq_lift]
  exact ends_sink_lift.mpr (ends_update f (p.1.2, p.2))

theorem ends_change_beside (f : FileTree → Except Fault FileTree) (p : (τ × Unit) × FileTree) :
    Ends (change f : ExceptT Fault (StateT τ World) Unit).run p (fun r p' =>
      match r with
      | .ok _ => f p.2 = .ok p'.2
      | .error _ => p'.2 = p.2) fun _ => False := by
  rw [change, update_eq_lift]
  exact ends_sink_lift.mpr (ends_change f (p.1.2, p.2))

theorem appendsTo_sink_beside (here : Location) :
    (sink here : Sink (StateT τ World)).AppendsTo id here where
  write bytes p := by
    have hwrite : (sink here : Sink (StateT τ World)).write bytes =
        Sink.lift ((sink here : Sink World).write bytes) := rfl
    rw [hwrite]
    exact ends_sink_lift.mpr ((appendsTo_sink here).write bytes (p.1.2, p.2))
  flush _ := rfl

/-- The operations on a file tree go on beside any state. -/
instance : CarriesTree (τ × Unit) FileTree (StateT τ World) where
  tree := id
  kind _ := ends_observe_beside _
  read _ := ends_observe_beside _
  map _ := ends_observe_beside _
  walk _ := ends_observe_beside _
  milliseconds _ := rfl
  makeDirectory _ := ends_change_beside _
  create path p := by
    refine ends_run_bind.mpr ((ends_update_beside _ p).mono fun r p' hr => ?_)
    cases r with
    | error fault => exact hr
    | ok here => exact ends_run_pure.mpr ⟨here, hr, appendsTo_sink_beside here⟩
  remove _ := ends_change_beside _
  rename _ _ := ends_change_beside _

theorem overlooks_observe {ε α : Type} (f : FileTree → Except ε α) :
    Overlooks (Aside Eq) (observe f : ExceptT ε (StateT τ World) α).run :=
  (overlooks_eq fun s => ⟨_, s, rfl⟩ : Overlooks Eq (observe f : ExceptT ε World α).run).lift_aside

theorem overlooks_update {α : Type} (f : FileTree → Except Fault (α × FileTree)) :
    Overlooks (Aside Eq) (update f : ExceptT Fault (StateT τ World) α).run := by
  have hends : Overlooks Eq (update f : ExceptT Fault World α).run :=
    overlooks_eq fun s => (ends_update f s).ends
  exact hends.lift_aside

theorem blindTo_aside : FileSystem.BlindTo (m := StateT τ World) (Aside Eq) where
  equivalence := Aside.equivalence eq_equivalence
  tree h := (Prod.mk.inj h).2
  kind _ := overlooks_observe _
  makeDirectory _ := overlooks_update _
  create path {p q} hpq := by
    refine ((overlooks_update (·.create path)).twins hpq).run_bind fun here p' here' q' hsame hpq => ?_
    cases hsame
    exact .pure ⟨⟨rfl, fun _ => overlooks_update _, overlooks_pure _⟩, hpq⟩
  remove _ := overlooks_update _
  rename _ _ := overlooks_update _

end FileTree

end JvmSymbols
