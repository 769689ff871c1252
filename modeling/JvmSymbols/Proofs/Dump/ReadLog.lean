import JvmSymbols.Proofs.Dump.Outline
import JvmSymbols.Proofs.Runs

/-!
# Keeping a log of what is read

A candidate that is logged puts its name on a log when it is read, and behind that what came of it.
The log outlives a run that is given up. Nothing else changes: without the log the run is the one
that it was (`forgets_writeEntries`).
-/

namespace JvmSymbols

open Archive (Abort)
open Dump (Failure Pending)
open FileSystem (Fault)

/-- The names that were asked for, in order, and what came of those reads that ended. -/
structure ReadLog where
  names : List String
  results : List Pending

namespace ReadLog

def empty : ReadLog := ⟨[], []⟩

/-- A read of `name` begins. -/
def ask (log : ReadLog) (name : String) : ReadLog := { log with names := log.names ++ [name] }

/-- The read that was begun last ends. -/
def answer (log : ReadLog) (pending : Pending) : ReadLog :=
  { log with results := log.results ++ [pending] }

end ReadLog

variable {σ τ α β ε ε' : Type}

/-- The run where a state is kept beside its own. -/
def Run.keeping (x : Run σ α) : Run (τ × σ) α :=
  ExceptT.mk fun s => pure ((x.on s.2).1, s.1, (x.on s.2).2)

def Sink.keeping (sink : Sink (Run σ)) : Sink (Run (τ × σ)) where
  write bytes := ExceptT.mk (Run.keeping (sink.write bytes).run)
  flush := ExceptT.mk (Run.keeping sink.flush.run)

def Candidate.logged (c : Candidate (Run σ)) : Candidate (Run (ReadLog × σ)) where
  name := c.name
  read := ExceptT.mk do
    modify (Prod.map (·.ask c.name) id)
    let result ← Run.keeping c.read.run
    modify (Prod.map (·.answer (c.name, result)) id)
    return result

/-! ## Forgetting the log -/

/-- The run does what `y` does, whatever is kept beside its state. -/
def Run.Forgets (x : Run (τ × σ) α) (y : Run σ α) : Prop :=
  ∀ t s, ∃ t', x.on (t, s) = ((y.on s).1, t', (y.on s).2)

namespace Run

theorem on_bind (x : Run σ α) (f : α → Run σ β) (s : σ) :
    (x >>= f).on s =
      match x.on s with
      | (.ok a, s') => (f a).on s'
      | (.error abort, s') => (.error abort, s') := by
  simp only [on, ExceptT.run_bind, StateT.run_bind]
  rcases x.run.run s with ⟨_ | a, s'⟩ <;> rfl

theorem forgets_pure (a : α) : Forgets (pure a : Run (τ × σ) α) (pure a) := fun t _ => ⟨t, rfl⟩

theorem forgets_keeping (x : Run σ α) : Forgets (keeping x : Run (τ × σ) α) x := fun t _ => ⟨t, rfl⟩

theorem forgets_modify (f : τ → τ) :
    Forgets (modify (Prod.map f id) : Run (τ × σ) PUnit) (pure ⟨⟩) := fun t _ => ⟨f t, rfl⟩

theorem Forgets.bind {x : Run (τ × σ) α} {y : Run σ α} {f : α → Run (τ × σ) β} {g : α → Run σ β}
    (h : Forgets x y) (hf : ∀ a, Forgets (f a) (g a)) : Forgets (x >>= f) (y >>= g) := by
  intro t s
  obtain ⟨t', hx⟩ := h t s
  rw [on_bind, on_bind, hx]
  rcases y.on s with ⟨abort | a, s'⟩
  · exact ⟨t', rfl⟩
  · exact hf a t' s'

theorem Forgets.run_bind {x : ExceptT ε (Run (τ × σ)) α} {y : ExceptT ε (Run σ) α}
    {f : α → ExceptT ε (Run (τ × σ)) β} {g : α → ExceptT ε (Run σ) β}
    (h : Forgets x.run y.run) (hf : ∀ a, Forgets (f a).run (g a).run) :
    Forgets (x >>= f).run (y >>= g).run := by
  rw [ExceptT.run_bind, ExceptT.run_bind]
  refine h.bind fun r => ?_
  cases r with
  | error e => exact forgets_pure _
  | ok a => exact hf a

theorem Forgets.adapt {x : ExceptT ε (Run (τ × σ)) α} {y : ExceptT ε (Run σ) α} (f : ε → ε')
    (h : Forgets x.run y.run) : Forgets (x.adapt f).run (y.adapt f).run := by
  rw [ExceptT.run_adapt, ExceptT.run_adapt, map_eq_pure_bind, map_eq_pure_bind]
  exact h.bind fun _ => forgets_pure _

theorem Forgets.lift {x : Run (τ × σ) α} {y : Run σ α} (h : Forgets x y) :
    Forgets (ExceptT.lift x : ExceptT ε _ α).run (ExceptT.lift y : ExceptT ε _ α).run := by
  rw [ExceptT.run_lift, ExceptT.run_lift, map_eq_pure_bind, map_eq_pure_bind]
  exact h.bind fun _ => forgets_pure _

theorem forgets_foldlM {f : β → α → ExceptT ε (Run (τ × σ)) β} {g : β → α → ExceptT ε (Run σ) β}
    (list : List α) (h : ∀ b, ∀ a ∈ list, Forgets (f b a).run (g b a).run) (b : β) :
    Forgets (list.foldlM f b).run (list.foldlM g b).run := by
  induction list generalizing b with
  | nil => exact forgets_pure _
  | cons a list ih =>
    rw [List.foldlM_cons, List.foldlM_cons]
    exact (h b a List.mem_cons_self).run_bind
      (ih fun b a' ha' => h b a' (List.mem_cons_of_mem a ha'))

end Run

open Run (Forgets forgets_pure forgets_keeping forgets_modify forgets_foldlM)

theorem Candidate.forgets_logged (c : Candidate (Run σ)) : Forgets c.logged.read.run c.read.run := by
  have hread : c.read.run = (pure PUnit.unit >>= fun _ => c.read.run >>= fun result =>
      pure PUnit.unit >>= fun _ => pure result) := by
    simp only [pure_bind, bind_pure]
  rw [hread]
  exact (forgets_modify _).bind fun _ => (forgets_keeping _).bind fun _ =>
    (forgets_modify _).bind fun _ => forgets_pure _

namespace Sink

theorem forgets_writeAllWithin (sink : Sink (Run σ)) (attempts : Nat) (bytes : Bytes) :
    Forgets ((sink.keeping : Sink (Run (τ × σ))).writeAllWithin attempts bytes).run
      (sink.writeAllWithin attempts bytes).run := by
  induction attempts generalizing bytes with
  | zero => exact forgets_pure _
  | succ attempts ih =>
    unfold writeAllWithin
    split
    · exact forgets_pure _
    · refine (forgets_keeping _).run_bind fun taken => ?_
      split
      · exact forgets_pure _
      · exact ih _

theorem forgets_writeParts (sink : Sink (Run σ)) (parts : List Bytes) :
    Forgets ((sink.keeping : Sink (Run (τ × σ))).writeParts parts).run
      (sink.writeParts parts).run := by
  induction parts with
  | nil => exact forgets_pure _
  | cons part parts ih => exact (forgets_writeAllWithin sink _ _).run_bind fun _ => ih

end Sink

namespace Dump

variable (settings : Settings) (sink : Sink (Run σ))

theorem forgets_readAhead (policy : Policy) (candidates : List (Candidate (Run σ))) :
    Forgets (readAhead policy (candidates.map Candidate.logged)) (readAhead policy candidates) := by
  induction candidates with
  | nil => exact forgets_pure _
  | cons c candidates ih =>
    refine c.forgets_logged.bind fun result => ?_
    have hon : Forgets
        (do return (c.name, result) :: (← readAhead policy (candidates.map Candidate.logged)))
        (do return (c.name, result) :: (← readAhead policy candidates)) :=
      ih.bind fun _ => forgets_pure _
    cases result with
    | ok bytes => exact hon
    | error failure =>
      cases policy with
      | failFast => exact forgets_pure _
      | skipAndContinue => exact hon

theorem forgets_handle (tally : Tally) (result : Parsed) :
    Forgets (handle settings (sink.keeping : Sink (Run (τ × σ))) tally result).run
      (handle settings sink tally result).run := by
  cases result with
  | ok symbols =>
    exact ((sink.forgets_writeParts _).adapt _).run_bind fun _ => forgets_pure _
  | error failure => exact forgets_pure _

theorem forgets_writeEntries (candidates : List (Candidate (Run σ))) :
    Forgets (writeEntries settings sink.keeping (candidates.map Candidate.logged)).run
      (writeEntries settings sink candidates).run := by
  rw [writeEntries, chunks_map, List.foldlM_map]
  refine forgets_foldlM _ (fun tally chunk _ => ?_) _
  refine (forgets_readAhead settings.policy chunk).lift.run_bind fun pending => ?_
  exact forgets_foldlM _ (fun tally result _ => forgets_handle settings sink tally result) tally

end Dump

end JvmSymbols
