import JvmSymbols.FileSystem.Sink

/-!
# Writing to sinks

Writing parts is a fold over them, and it goes through `Sink.lift`: a sink that is used beside a
state of its own (`Sink.beside`) does what it does without that state.
-/

namespace JvmSymbols.Sink

open FileSystem (Fault)

variable {m : Type → Type} [Monad m] [LawfulMonad m] {σ α β ε ε' : Type}

/-! ## Lifted actions -/

theorem run_lift (action : ExceptT ε m α) (s : σ) :
    (lift action : ExceptT ε (StateT σ m) α).run.run s = (fun r => (r, s)) <$> action.run := by
  simp [lift]

theorem lift_pure (a : α) :
    (lift (pure a : ExceptT ε m α) : ExceptT ε (StateT σ m) α) = pure a := by
  ext s
  simp [run_lift]

theorem lift_throw (e : ε) :
    (lift (throw e : ExceptT ε m α) : ExceptT ε (StateT σ m) α) = throw e := by
  ext s
  simp [run_lift]

theorem lift_bind (x : ExceptT ε m α) (f : α → ExceptT ε m β) :
    (lift (x >>= f) : ExceptT ε (StateT σ m) β) = lift x >>= fun a => lift (f a) := by
  ext s
  simp only [run_lift, ExceptT.run_bind, StateT.run_bind, map_bind, bind_map_left]
  congr; funext r
  cases r <;> simp [run_lift]

theorem lift_adapt (f : ε → ε') (x : ExceptT ε m α) :
    (lift (x.adapt f) : ExceptT ε' (StateT σ m) α) = (lift x).adapt f := by
  ext s
  simp [run_lift]

/-- The sink in a monad that keeps a state beside that of `m`. -/
def beside (sink : Sink m) : Sink (StateT σ m) where
  write bytes := lift (sink.write bytes)
  flush := lift sink.flush

/-! ## Parts -/

theorem writeParts_append (sink : Sink m) (xs ys : List Bytes) :
    sink.writeParts (xs ++ ys) = sink.writeParts xs >>= fun _ => sink.writeParts ys := by
  induction xs with
  | nil => simp [writeParts]
  | cons x xs ih => simp [writeParts, ih]

theorem writeAllWithin_beside (sink : Sink m) (attempts : Nat) (bytes : Bytes) :
    (sink.beside : Sink (StateT σ m)).writeAllWithin attempts bytes =
      lift (sink.writeAllWithin attempts bytes) := by
  induction attempts generalizing bytes with
  | zero => exact (lift_pure ()).symm
  | succ attempts ih =>
    unfold writeAllWithin
    split
    · exact (lift_pure ()).symm
    · rw [lift_bind]
      congr; funext taken
      split
      · exact (lift_throw _).symm
      · exact ih _

theorem writeParts_beside (sink : Sink m) (parts : List Bytes) :
    (sink.beside : Sink (StateT σ m)).writeParts parts = lift (sink.writeParts parts) := by
  induction parts with
  | nil => exact (lift_pure ()).symm
  | cons part parts ih =>
    rw [writeParts, writeParts, lift_bind, ih, writeAll, writeAll, writeAllWithin_beside]

end JvmSymbols.Sink
