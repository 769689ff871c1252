import JvmSymbols.Proofs.FileSystem.CarriesTree

/-!
# A machine with faults

A file tree whose operations fail when they are told to, and whose files take only a few bytes at
once.
-/

namespace JvmSymbols

open FileSystem (Fault)

structure Machine where
  tree : FileTree
  /-- The faults of the next operations, if they are to fail. -/
  faults : List (Option Fault)
  /-- The number of bytes that a file takes at once. -/
  most : Nat

namespace Machine

/-- Does to the tree what `f` says, unless the operation is to fail. -/
def step {α : Type} (f : FileTree → Except Fault (α × FileTree)) (machine : Machine) :
    Except Fault α × Machine :=
  let rest := { machine with faults := machine.faults.tail }
  match machine.faults with
  | some fault :: _ => (.error fault, rest)
  | _ =>
    match f machine.tree with
    | .ok (a, tree) => (.ok a, { rest with tree })
    | .error fault => (.error fault, rest)

def attempt {α : Type} (f : FileTree → Except Fault (α × FileTree)) :
    ExceptT Fault (Run Machine) α :=
  ExceptT.mk (modifyGetThe Machine (step f))

def sink (here : Location) : Sink (Run Machine) where
  write bytes := do
    let machine ← getThe Machine
    attempt fun tree =>
      let taken := bytes.take machine.most
      return (taken.length, ← tree.append here taken)
  flush := pure ()

instance : FileSystem (Run Machine) where
  kind path := attempt fun tree => return (← tree.kind path, tree)
  read path := attempt fun tree => return (← tree.read path, tree)
  map path := attempt fun tree => return (← tree.map path, tree)
  walk root := ExceptT.mk ((fun machine : Machine => machine.tree.walk root) <$> getThe Machine)
  makeDirectory path := attempt fun tree => return ((), ← tree.makeDirectory path)
  create path := do return sink (← attempt (·.create path))
  remove path := attempt fun tree => return ((), ← tree.remove path)
  rename old new := attempt fun tree => return ((), ← tree.rename old new)
  milliseconds := pure 0

/-- An operation that fails leaves the tree as it is. -/
theorem step_cases {α : Type} (f : FileTree → Except Fault (α × FileTree)) (machine : Machine) :
    match (step f machine).1 with
    | .ok a => f machine.tree = .ok (a, (step f machine).2.tree)
    | .error _ => (step f machine).2.tree = machine.tree := by
  obtain ⟨tree, _ | ⟨_ | fault, faults⟩, most⟩ := machine
  · rcases h : f tree with fault | ⟨a, tree'⟩ <;> simp [step, h]
  · rcases h : f tree with fault | ⟨a, tree'⟩ <;> simp [step, h]
  · rfl

theorem ends_attempt {α : Type} (f : FileTree → Except Fault (α × FileTree)) (s : Unit × Machine) :
    Ends (attempt f).run s (fun r s' =>
      match r with
      | .ok a => f s.2.tree = .ok (a, s'.2.tree)
      | .error _ => s'.2.tree = s.2.tree) fun _ => False := by
  have hexec : RunsOver.exec (attempt f).run s = (.ok ((step f s.2).1, ()), (step f s.2).2) := rfl
  rw [Ends, hexec]
  exact step_cases f s.2

theorem ends_attempt_look {α : Type} (f : FileTree → Except Fault α) (s : Unit × Machine) :
    Ends (attempt fun tree => return (← f tree, tree)).run s
      (fun _ s' => s'.2.tree = s.2.tree) fun _ => False := by
  refine (ends_attempt _ s).mono fun r s' hr => ?_
  cases r with
  | error fault => exact hr
  | ok a =>
    obtain ⟨b, -, hb⟩ := exists_of_return_eq_ok hr
    exact (Prod.mk.inj hb).2.symm

theorem ends_attempt_change (f : FileTree → Except Fault FileTree) (s : Unit × Machine) :
    Ends (attempt fun tree => return ((), ← f tree)).run s (fun r s' =>
      match r with
      | .ok _ => f s.2.tree = .ok s'.2.tree
      | .error _ => s'.2.tree = s.2.tree) fun _ => False := by
  refine (ends_attempt _ s).mono fun r s' hr => ?_
  cases r with
  | error fault => exact hr
  | ok a =>
    obtain ⟨tree, htree, hb⟩ := exists_of_return_eq_ok hr
    exact (Prod.mk.inj hb).2 ▸ htree

theorem appendsTo_sink (here : Location) : (sink here).AppendsTo Machine.tree here where
  write bytes s := by
    have hget {Q : Except Fault Machine → Unit × Machine → Prop} (hQ : Q (.ok s.2) s) :
        Ends (getThe Machine : ExceptT Fault (Run Machine) Machine).run s Q fun _ => False := hQ
    refine ends_run_bind.mpr (hget ((ends_attempt _ s).mono fun r s' hr => ?_))
    cases r with
    | error fault => exact hr
    | ok n =>
      obtain ⟨tree, htree, hb⟩ := exists_of_return_eq_ok hr
      obtain ⟨rfl, rfl⟩ := Prod.mk.inj hb
      refine ⟨List.length_take_le' .., ?_⟩
      rw [List.length_take, ← List.take_eq_take_min]
      exact htree
  flush s := rfl

instance : CarriesTree Unit Machine (Run Machine) where
  tree := Machine.tree
  kind _ := ends_attempt_look _
  read _ := ends_attempt_look _
  map _ := ends_attempt_look _
  walk _ _ := rfl
  milliseconds _ := rfl
  makeDirectory _ := ends_attempt_change _
  create path s := by
    refine ends_run_bind.mpr ((ends_attempt _ s).mono fun r s' hr => ?_)
    cases r with
    | error fault => exact hr
    | ok here => exact ends_run_pure.mpr ⟨here, hr, appendsTo_sink here⟩
  remove _ := ends_attempt_change _
  rename _ _ := ends_attempt_change _

end Machine

end JvmSymbols
