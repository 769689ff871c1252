import JvmSymbols.Dump.OneByOne
import JvmSymbols.Proofs.FileSystem.SinkLemmas

/-!
# What a dump writes and counts

What comes of the candidates decides which symbols are written and what the run ends with, unless a
write fails: `foldlM_handle` splits the handling of candidates into the writing of `written` and the
pure fold of `Tally.step`.
-/

namespace JvmSymbols.Dump

/-- What came of reading and parsing a candidate. -/
abbrev Parsed := Except Failure (List Symbol)

/-- The symbols that go into the report. A failure that ends the run ends them, too. -/
def written (policy : Policy) : List Parsed → List Symbol
  | [] => []
  | .ok symbols :: results => symbols ++ written policy results
  | .error _ :: results =>
    match policy with
    | .failFast => []
    | .skipAndContinue => written policy results

/-- Counts what came of one candidate. -/
def Tally.step (policy : Policy) (tally : Tally) : Parsed → Except Failure Tally
  | .ok symbols => .ok (tally.record symbols)
  | .error failure => tally.fail failure policy

/-- The candidate could not be read or parsed. -/
def Pending.fails (pending : Pending) : Bool :=
  match pending.parse with
  | .ok _ => false
  | .error _ => true

/-! ## Batches -/

theorem flatten_chunksWithin {α : Type} {size steps : Nat} {list : List α} (hsize : 0 < size)
    (hsteps : list.length ≤ steps) : (chunksWithin size steps list).flatten = list := by
  induction steps generalizing list with
  | zero =>
    cases List.eq_nil_of_length_eq_zero (Nat.le_zero.mp hsteps)
    rfl
  | succ steps ih =>
    unfold chunksWithin
    split
    · rename_i hempty
      rw [List.isEmpty_iff.mp hempty]
      rfl
    · have hdrop : (list.drop size).length ≤ steps := by
        rw [List.length_drop]
        omega
      rw [List.flatten_cons, ih hdrop, List.take_append_drop]

theorem flatten_chunks {α : Type} (list : List α) : (chunks batchSize list).flatten = list :=
  flatten_chunksWithin (by decide) (Nat.le_refl _)

theorem chunks_map {α β : Type} (size : Nat) (f : α → β) (list : List α) :
    chunks size (list.map f) = (chunks size list).map (·.map f) := by
  have hwithin (steps : Nat) (list : List α) :
      chunksWithin size steps (list.map f) = (chunksWithin size steps list).map (·.map f) := by
    induction steps generalizing list with
    | zero => rfl
    | succ steps ih =>
      unfold chunksWithin
      rw [List.isEmpty_map, ← List.map_take, ← List.map_drop, ih]
      split <;> rfl
  rw [chunks, List.length_map, hwithin]
  rfl

/-! ## The first failure ends the run -/

theorem written_failFast (lines : List (List Symbol)) (failure : Failure) (results : List Parsed) :
    written .failFast (lines.map Except.ok ++ Except.error failure :: results) = lines.flatten := by
  induction lines with
  | nil => rfl
  | cons symbols lines ih => rw [List.map_cons, List.cons_append, written, ih, List.flatten_cons]

theorem foldlM_step_failFast (tally : Tally) (lines : List (List Symbol)) (failure : Failure)
    (results : List Parsed) :
    (lines.map Except.ok ++ Except.error failure :: results).foldlM (Tally.step .failFast) tally =
      .error failure := by
  induction lines generalizing tally with
  | nil => rfl
  | cons symbols lines ih => exact ih (tally.record symbols)

/-! ## Writing and counting -/

section
variable {m : Type → Type} [Monad m] [LawfulMonad m] {ε ε' α β : Type}

theorem adapt_bind (f : ε → ε') (x : ExceptT ε m α) (g : α → ExceptT ε m β) :
    (x >>= g).adapt f = x.adapt f >>= fun a => (g a).adapt f := by
  ext
  simp only [ExceptT.run_adapt, ExceptT.run_bind, map_bind, bind_map_left]
  congr; funext r
  rcases r with e | a
  · simp
    rfl
  · rfl

omit [LawfulMonad m] in
theorem writeSymbols_nil (sink : Sink m) (format : ReportFormat) :
    writeSymbols sink [] format = pure () := rfl

theorem writeSymbols_append (sink : Sink m) (xs ys : List Symbol) (format : ReportFormat) :
    writeSymbols sink (xs ++ ys) format =
      writeSymbols sink xs format >>= fun _ => writeSymbols sink ys format := by
  simp [writeSymbols, Sink.writeParts_append]

variable (settings : Settings) (sink : Sink m)

/-- The lines of symbols, with the failure that a dump gives for a fault of the sink. -/
def writeLines (symbols : List Symbol) : ExceptT Failure m Unit :=
  (writeSymbols sink symbols settings.format).adapt (Failure.unwritable settings.output)

theorem writeLines_nil : writeLines settings sink [] = pure () := by
  ext
  rw [writeLines, writeSymbols_nil, ExceptT.run_adapt, ExceptT.run_pure, map_pure]
  rfl

theorem writeLines_append (xs ys : List Symbol) :
    writeLines settings sink (xs ++ ys) =
      writeLines settings sink xs >>= fun _ => writeLines settings sink ys := by
  rw [writeLines, writeSymbols_append, adapt_bind]
  rfl

theorem handle_eq (tally : Tally) (result : Parsed) :
    handle settings sink tally result =
      writeLines settings sink (written settings.policy [result]) >>= fun _ =>
        ExceptT.mk (pure (tally.step settings.policy result)) := by
  cases result with
  | ok symbols => simp [handle, written, Tally.step, writeLines]; rfl
  | error failure =>
    have hnil : written settings.policy [.error failure] = [] := by
      cases settings.policy <;> rfl
    rw [hnil, writeLines_nil, pure_bind]
    rfl

/-- Behind a step that ends the run nothing is written. -/
theorem written_cons (policy : Policy) (tally : Tally) (result : Parsed) (results : List Parsed) :
    written policy (result :: results) = written policy [result] ++
      match tally.step policy result with
      | .ok _ => written policy results
      | .error _ => [] := by
  cases result with
  | ok symbols => simp [written, Tally.step]
  | error failure => cases policy <;> simp [written, Tally.step, Tally.fail]

/-- All that is written is written before the run ends, be it with a failure. -/
theorem foldlM_handle (tally : Tally) (results : List Parsed) :
    results.foldlM (handle settings sink) tally =
      writeLines settings sink (written settings.policy results) >>= fun _ =>
        ExceptT.mk (pure (results.foldlM (Tally.step settings.policy) tally)) := by
  induction results generalizing tally with
  | nil => rw [written, writeLines_nil, pure_bind]; rfl
  | cons result results ih =>
    rw [List.foldlM_cons, List.foldlM_cons, handle_eq,
      written_cons settings.policy tally result results,
      writeLines_append, bind_assoc, bind_assoc]
    congr 1
    funext _
    cases tally.step settings.policy result with
    | ok tally' => exact (pure_bind tally' _).trans (ih tally')
    | error failure =>
      rw [writeLines_nil, pure_bind]
      exact ExceptT.ext (pure_bind (Except.error failure) _)

end

end JvmSymbols.Dump
