import JvmSymbols.Archive.Fault
import JvmSymbols.FileSystem.Sink

/-!
# How runs end

A run changes a state and may be given up at once. `Ends` says what holds when it is over, in both
cases; the lemmas below take it through the monads that programs are written in.
-/

namespace JvmSymbols

open Archive (Abort)

/-- Runs that change a state `σ` and may be given up, which leaves the state as it is then. -/
abbrev Run (σ : Type) := ExceptT Abort (StateM σ)

/-- A monad whose actions change a state `σ`, which outlives a run that is given up, and a state
`own`, which does not. -/
class RunsOver (own σ : outParam Type) (m : Type → Type) [Monad m] [MonadExceptOf Abort m] where
  exec {α : Type} : m α → own × σ → Except Abort (α × own) × σ
  exec_pure {α : Type} (a : α) (s : own × σ) : exec (pure a) s = (.ok (a, s.1), s.2)
  exec_bind {α β : Type} (x : m α) (f : α → m β) (s : own × σ) :
    exec (x >>= f) s =
      match exec x s with
      | (.ok (a, t), s') => exec (f a) (t, s')
      | (.error abort, s') => (.error abort, s')
  exec_throw {α : Type} (abort : Abort) (s : own × σ) :
    exec (throwThe Abort abort : m α) s = (.error abort, s.2)
  exec_tryCatch {α : Type} (x : m α) (handler : Abort → m α) (s : own × σ) :
    exec (tryCatchThe Abort x handler) s =
      match exec x s with
      | (.ok r, s') => (.ok r, s')
      | (.error abort, s') => exec (handler abort) (s.1, s')

open RunsOver

instance (σ : Type) : RunsOver Unit σ (Run σ) where
  exec x s := match x.run.run s.2 with | (r, s') => (r.map fun a => (a, ()), s')
  exec_pure _ _ := rfl
  exec_bind x f s := by
    simp only [ExceptT.run_bind, StateT.run_bind]
    rcases hx : x.run.run s.2 with ⟨_ | a, s'⟩ <;> rfl
  exec_throw _ _ := rfl
  exec_tryCatch x handler s := by
    rcases hx : x.run.run s.2 with ⟨_ | a, s'⟩ <;> simp only [StateT.run, ExceptT.run] at hx
    · simp [tryCatchThe, MonadExceptOf.tryCatch, ExceptT.tryCatch, bind, StateT.bind, StateT.run, hx,
        ExceptT.run, ExceptT.mk, Except.map]
    · simp [tryCatchThe, MonadExceptOf.tryCatch, ExceptT.tryCatch, bind, StateT.bind, StateT.run, hx,
        ExceptT.run, ExceptT.mk, Except.map]
      rfl

variable {m : Type → Type} [Monad m] [MonadExceptOf Abort m] {own σ τ α β ε ε' : Type}

instance [RunsOver own σ m] : RunsOver (τ × own) σ (StateT τ m) where
  exec x s :=
    match exec (x.run s.1.1) (s.1.2, s.2) with
    | (r, s') => (r.map fun p => (p.1.1, p.1.2, p.2), s')
  exec_pure a s := by
    simp only [StateT.run_pure, exec_pure]
    rfl
  exec_bind x f s := by
    simp only [StateT.run_bind, exec_bind]
    rcases exec (x.run s.1.1) (s.1.2, s.2) with ⟨_ | a, s'⟩ <;> rfl
  exec_throw := by
    intro α abort s
    have hrun : (throwThe Abort abort : StateT τ m α).run s.1.1 =
        (throwThe Abort abort : m α) >>= fun a => pure (a, s.1.1) := rfl
    rw [hrun, exec_bind, exec_throw]
    rfl
  exec_tryCatch := by
    intro α x handler s
    have hrun : (tryCatchThe Abort x handler : StateT τ m α).run s.1.1 =
        tryCatchThe Abort (x.run s.1.1) fun abort => (handler abort).run s.1.1 := rfl
    rw [hrun, exec_tryCatch]
    rcases exec (x.run s.1.1) (s.1.2, s.2) with ⟨_ | a, s'⟩ <;> rfl

variable [RunsOver own σ m]

/-- From `s` the run ends as `Q` says, or it is given up and leaves a state as `E` says. -/
def Ends (x : m α) (s : own × σ) (Q : α → own × σ → Prop) (E : σ → Prop) : Prop :=
  match exec x s with
  | (.ok (a, t), s') => Q a (t, s')
  | (.error _, s') => E s'

variable {s : own × σ} {E E' : σ → Prop}

theorem Ends.imp {x : m α} {Q Q' : α → own × σ → Prop} (h : Ends x s Q E)
    (hQ : ∀ a s', Q a s' → Q' a s') (hE : ∀ s', E s' → E' s') : Ends x s Q' E' := by
  unfold Ends at *
  rcases hx : exec x s with ⟨_ | ⟨a, t⟩, s'⟩ <;> rw [hx] at h
  · exact hE _ h
  · exact hQ _ _ h

theorem Ends.mono {x : m α} {Q Q' : α → own × σ → Prop} (h : Ends x s Q E)
    (hQ : ∀ a s', Q a s' → Q' a s') : Ends x s Q' E := h.imp hQ fun _ => id

/-- A run that is never given up. -/
theorem Ends.of_false {x : m α} {Q Q' : α → own × σ → Prop} (h : Ends x s Q fun _ => False)
    (hQ : ∀ a s', Q a s' → Q' a s') : Ends x s Q' E := h.imp hQ fun _ => False.elim

theorem ends_anyhow (x : m α) (s : own × σ) : Ends x s (fun _ _ => True) fun _ => True := by
  unfold Ends
  split <;> trivial

/-- From `s` the run ends with `a` and leaves `s'`. -/
def EndsWith (x : m α) (s : own × σ) (a : α) (s' : own × σ) : Prop := exec x s = (.ok (a, s'.1), s'.2)

theorem EndsWith.unique {x : m α} {a b : α} {s₁ s₂ : own × σ} (h : EndsWith x s a s₁)
    (h' : EndsWith x s b s₂) : a = b ∧ s₁ = s₂ := by
  have hsame := h.symm.trans h'
  simp only [Prod.mk.injEq, Except.ok.injEq] at hsame
  exact ⟨hsame.1.1, Prod.ext hsame.1.2 hsame.2⟩

theorem Ends.of_endsWith {x : m α} {a : α} {s' : own × σ} {Q : α → own × σ → Prop} (h : Ends x s Q E)
    (hx : EndsWith x s a s') : Q a s' := by
  rw [Ends, hx] at h
  exact h

/-- A run that is never given up ends. -/
theorem Ends.exists_endsWith {x : m α} {Q : α → own × σ → Prop} (h : Ends x s Q fun _ => False) :
    ∃ a s', EndsWith x s a s' ∧ Q a s' := by
  rw [Ends] at h
  rcases hx : exec x s with ⟨_ | ⟨a, t⟩, s'⟩ <;> rw [hx] at h
  · exact h.elim
  · exact ⟨a, (t, s'), hx, h⟩

/-- What holds at the end of a run may refer to the run itself. -/
theorem Ends.and_endsWith {x : m α} {Q : α → own × σ → Prop} (h : Ends x s Q E) :
    Ends x s (fun a s' => EndsWith x s a s' ∧ Q a s') E := by
  unfold Ends EndsWith at *
  rcases hx : exec x s with ⟨_ | ⟨a, t⟩, s'⟩ <;> rw [hx] at h
  · exact h
  · exact ⟨rfl, h⟩

/-- What comes of a run that starts with `start`, and the state it leaves behind. -/
def Run.on (start : σ) (run : Run σ α) : Except Abort α × σ := run.run.run start

theorem Run.exec_eq (run : Run σ α) (start : σ) :
    exec run ((), start) = ((run.on start).1.map fun a => (a, ()), (run.on start).2) := rfl

theorem Run.endsWith {start : σ} {run : Run σ α} {a : α} (h : (run.on start).1 = .ok a) :
    EndsWith run ((), start) a ((), (run.on start).2) := by
  rw [EndsWith, Run.exec_eq, h]
  rfl

/-- What holds when a run is over holds of what comes of it and of the state it leaves. -/
theorem Run.of_ends {start : σ} {run : Run σ α} {P : Except Abort α → σ → Prop}
    (h : Ends run ((), start) (fun a s' => P (.ok a) s'.2) fun s' => ∀ abort, P (.error abort) s') :
    P (run.on start).1 (run.on start).2 := by
  rw [Ends, Run.exec_eq] at h
  rcases hrun : (run.on start).1 with abort | a <;> rw [hrun] at h
  · exact h abort
  · exact h

/-- A run that is given up does not end. -/
theorem Run.not_endsWith {start : σ} {run : Run σ α} {abort : Abort}
    (h : (run.on start).1 = .error abort) (a : α) (s' : Unit × σ) :
    ¬ EndsWith run ((), start) a s' := by
  intro hends
  rw [EndsWith, Run.exec_eq, h] at hends
  cases hends

/-- What a run returns that is not given up and does not fail. -/
def Run.value? (start : σ) (run : ExceptT ε (Run σ) α) : Option α :=
  (Run.on start run.run).1.toOption.bind Except.toOption

theorem Run.exists_endsWith_of_any {start : σ} {run : ExceptT ε (Run σ) α} {p : α → Bool}
    (h : (Run.value? start run).any p = true) :
    ∃ a, p a = true ∧ EndsWith run.run ((), start) (.ok a) ((), (Run.on start run.run).2) := by
  rw [Run.value?] at h
  rcases hrun : (Run.on start run.run).1 with abort | fault | a
  · rw [hrun] at h
    cases h
  · rw [hrun] at h
    cases h
  · rw [hrun] at h
    exact ⟨a, h, Run.endsWith hrun⟩

theorem Run.exists_endsWith {start : σ} {run : ExceptT ε (Run σ) α}
    (h : (Run.value? start run).isSome = true) :
    ∃ a, EndsWith run.run ((), start) (.ok a) ((), (Run.on start run.run).2) := by
  obtain ⟨a, -, ha⟩ := Run.exists_endsWith_of_any (p := fun _ => true) (by
    rwa [Option.any_true])
  exact ⟨a, ha⟩

section
variable {Q : β → own × σ → Prop}

theorem EndsWith.bind {x : m α} {f : α → m β} {a : α} {b : β} {s' s'' : own × σ}
    (hx : EndsWith x s a s') (hf : EndsWith (f a) s' b s'') : EndsWith (x >>= f) s b s'' := by
  rw [EndsWith, exec_bind, hx]
  exact hf

@[simp]
theorem ends_pure {b : β} : Ends (pure b : m β) s Q E ↔ Q b s := by
  rw [Ends, exec_pure]

@[simp]
theorem ends_bind {x : m α} {f : α → m β} :
    Ends (x >>= f) s Q E ↔ Ends x s (fun a s' => Ends (f a) s' Q E) E := by
  unfold Ends
  rw [exec_bind]
  rcases exec x s with ⟨_ | a, s'⟩ <;> rfl

@[simp]
theorem ends_map [LawfulMonad m] {x : m α} {f : α → β} :
    Ends (f <$> x) s Q E ↔ Ends x s (fun a => Q (f a)) E := by
  rw [map_eq_pure_bind, ends_bind]
  simp only [ends_pure]

@[simp]
theorem ends_discard [LawfulMonad m] {x : m α} {Q : PUnit → own × σ → Prop} :
    Ends (discard x) s Q E ↔ Ends x s (fun _ => Q ⟨⟩) E := by
  rw [Functor.discard, map_const]
  exact ends_map

theorem ends_throw {abort : Abort} : Ends (throwThe Abort abort : m β) s Q E ↔ E s.2 := by
  rw [Ends, exec_throw]

/-- The handler starts with the monad's own state as it was before `x`. -/
theorem Ends.tryCatch {x : m β} {handler : Abort → m β} (h : Ends x s Q E')
    (hhandler : ∀ abort s', E' s' → Ends (handler abort) (s.1, s') Q E) :
    Ends (tryCatchThe Abort x handler) s Q E := by
  unfold Ends at *
  rw [exec_tryCatch]
  rcases hx : exec x s with ⟨_ | a, s'⟩ <;> rw [hx] at h
  · exact hhandler _ _ h
  · exact h

end

/-! ## Faults -/

section
variable {Q : Except ε β → own × σ → Prop}

@[simp]
theorem ends_run_pure {b : β} : Ends (pure b : ExceptT ε m β).run s Q E ↔ Q (.ok b) s := ends_pure

@[simp]
theorem ends_run_throw {e : ε} : Ends (throw e : ExceptT ε m β).run s Q E ↔ Q (.error e) s := ends_pure

theorem ends_run_bind {x : ExceptT ε m α} {f : α → ExceptT ε m β} :
    Ends (x >>= f).run s Q E ↔
      Ends x.run s (fun r s' =>
        match r with
        | .ok a => Ends (f a).run s' Q E
        | .error e => Q (.error e) s') E := by
  rw [ExceptT.run_bind, ends_bind]
  constructor <;> refine fun h => h.mono fun r s' hr => ?_
  · cases r with
    | ok a => exact hr
    | error e => exact ends_pure.mp hr
  · cases r with
    | ok a => exact hr
    | error e => exact ends_pure.mpr hr

theorem EndsWith.lift [LawfulMonad m] {x : m α} {a : α} {s' : own × σ} (h : EndsWith x s a s') :
    EndsWith (ExceptT.lift x : ExceptT ε m α).run s (.ok a) s' := by
  rw [ExceptT.run_lift, map_eq_pure_bind]
  exact h.bind (exec_pure _ _)

theorem EndsWith.adapt [LawfulMonad m] {x : ExceptT ε' m α} {f : ε' → ε} {r : Except ε' α}
    {s' : own × σ} (h : EndsWith x.run s r s') : EndsWith (x.adapt f).run s (r.mapError f) s' := by
  rw [ExceptT.run_adapt, map_eq_pure_bind]
  exact h.bind (exec_pure _ _)

theorem EndsWith.map [LawfulMonad m] {x : ExceptT ε m α} {f : α → β} {r : Except ε α}
    {s' : own × σ} (h : EndsWith x.run s r s') : EndsWith (f <$> x).run s (r.map f) s' := by
  rw [ExceptT.run_map, map_eq_pure_bind]
  exact h.bind (exec_pure _ _)

theorem exec_run_bind_of_endsWith {x : ExceptT ε m α} {f : α → ExceptT ε m β} {a : α}
    {s' : own × σ} (hx : EndsWith x.run s (.ok a) s') :
    exec (x >>= f).run s = exec (f a).run s' := by
  rw [ExceptT.run_bind, exec_bind, hx]

/-- A fault ends the run. -/
theorem EndsWith.bind_error {x : ExceptT ε m α} {f : α → ExceptT ε m β} {e : ε} {s' : own × σ}
    (hx : EndsWith x.run s (.error e) s') : EndsWith (x >>= f).run s (.error e) s' := by
  rw [ExceptT.run_bind]
  exact hx.bind (exec_pure _ _)

omit [MonadExceptOf Abort m] [RunsOver own σ m] in
theorem run_tryCatch_eq (x : ExceptT ε m β) (handler : ε → ExceptT ε m β) :
    (tryCatch x handler).run = x.run >>= fun r =>
      match r with
      | .ok b => pure (.ok b)
      | .error e => (handler e).run := by
  show ExceptT.run (ExceptT.tryCatch x handler) = _
  rw [ExceptT.tryCatch, ExceptT.run_mk]
  congr 1
  funext r
  cases r <;> rfl

theorem EndsWith.run_tryCatch_ok {x : ExceptT ε m β} {handler : ε → ExceptT ε m β} {b : β}
    {s' : own × σ} (h : EndsWith x.run s (.ok b) s') :
    EndsWith (tryCatch x handler).run s (.ok b) s' := by
  rw [run_tryCatch_eq]
  exact h.bind (exec_pure _ _)

theorem EndsWith.run_tryCatch_error {x : ExceptT ε m β} {handler : ε → ExceptT ε m β} {e : ε}
    {r : Except ε β} {s' s'' : own × σ} (h : EndsWith x.run s (.error e) s')
    (hhandler : EndsWith (handler e).run s' r s'') : EndsWith (tryCatch x handler).run s r s'' := by
  rw [run_tryCatch_eq]
  exact h.bind hhandler

theorem ends_run_tryCatch {x : ExceptT ε m β} {handler : ε → ExceptT ε m β} :
    Ends (tryCatch x handler).run s Q E ↔
      Ends x.run s (fun r s' =>
        match r with
        | .ok b => Q (.ok b) s'
        | .error e => Ends (handler e).run s' Q E) E := by
  rw [run_tryCatch_eq, ends_bind]
  constructor <;> refine fun h => h.mono fun r s' hr => ?_
  · cases r with
    | ok b => exact ends_pure.mp hr
    | error e => exact hr
  · cases r with
    | ok b => exact ends_pure.mpr hr
    | error e => exact hr

@[simp]
theorem ends_run_adapt [LawfulMonad m] {x : ExceptT ε' m β} {f : ε' → ε} :
    Ends (x.adapt f).run s Q E ↔ Ends x.run s (fun r => Q (r.mapError f)) E := by
  rw [ExceptT.run_adapt, ends_map]

@[simp]
theorem ends_run_lift [LawfulMonad m] {x : m β} :
    Ends (ExceptT.lift x : ExceptT ε m β).run s Q E ↔ Ends x s (fun b => Q (.ok b)) E := by
  rw [ExceptT.run_lift, ends_map]

end

/-! ## States of one's own -/

section
variable [LawfulMonad m] {Q : α → (τ × own) × σ → Prop} {p : (τ × own) × σ}

@[simp]
theorem ends_stateT_lift {x : m α} :
    Ends (StateT.lift x : StateT τ m α) p Q E ↔
      Ends x (p.1.2, p.2) (fun a s' => Q a ((p.1.1, s'.1), s'.2)) E := by
  have hrun : (StateT.lift x : StateT τ m α).run p.1.1 = (fun a => (a, p.1.1)) <$> x := by
    rw [StateT.run_lift, map_eq_pure_bind]
  have hexec : exec (StateT.lift x : StateT τ m α) p =
      match exec ((StateT.lift x : StateT τ m α).run p.1.1) (p.1.2, p.2) with
      | (r, s') => (r.map fun q => (q.1.1, q.1.2, q.2), s') := rfl
  rw [Ends, Ends, hexec, hrun, map_eq_pure_bind, exec_bind]
  rcases exec x (p.1.2, p.2) with ⟨_ | a, s'⟩
  · rfl
  · simp only [exec_pure]
    rfl

@[simp]
theorem ends_sink_lift {x : ExceptT ε m α} {Q : Except ε α → (τ × own) × σ → Prop} :
    Ends (Sink.lift x : ExceptT ε (StateT τ m) α).run p Q E ↔
      Ends x.run (p.1.2, p.2) (fun r s' => Q r ((p.1.1, s'.1), s'.2)) E := ends_stateT_lift

omit [LawfulMonad m] in
theorem ends_stateT_get {Q : τ → (τ × own) × σ → Prop} :
    Ends (get : StateT τ m τ) p Q E ↔ Q p.1.1 p := by
  have hexec : exec (get : StateT τ m τ) p =
      match exec (pure (p.1.1, p.1.1) : m (τ × τ)) (p.1.2, p.2) with
      | (r, s') => (r.map fun q => (q.1.1, q.1.2, q.2), s') := rfl
  rw [Ends, hexec, exec_pure]
  rfl

omit [LawfulMonad m] in
theorem ends_stateT_modify {f : τ → τ} {Q : PUnit → (τ × own) × σ → Prop} :
    Ends (modify f : StateT τ m PUnit) p Q E ↔ Q ⟨⟩ ((f p.1.1, p.1.2), p.2) := by
  have hexec : exec (modify f : StateT τ m PUnit) p =
      match exec (pure (⟨⟩, f p.1.1) : m (PUnit × τ)) (p.1.2, p.2) with
      | (r, s') => (r.map fun q => (q.1.1, q.1.2, q.2), s') := rfl
  rw [Ends, hexec, exec_pure]
  rfl

@[simp]
theorem ends_run_getThe {Q : Except ε τ → (τ × own) × σ → Prop} :
    Ends (getThe τ : ExceptT ε (StateT τ m) τ).run p Q E ↔ Q (.ok p.1.1) p := by
  have hrun : (getThe τ : ExceptT ε (StateT τ m) τ).run = (fun t => .ok t) <$> (get : StateT τ m τ) :=
    rfl
  rw [hrun, ends_map, ends_stateT_get]

@[simp]
theorem ends_run_modifyThe {f : τ → τ} {Q : Except ε PUnit → (τ × own) × σ → Prop} :
    Ends (modifyThe τ f : ExceptT ε (StateT τ m) PUnit).run p Q E ↔
      Q (.ok ⟨⟩) ((f p.1.1, p.1.2), p.2) := by
  have hrun : (modifyThe τ f : ExceptT ε (StateT τ m) PUnit).run =
      (fun u => .ok u) <$> (modify f : StateT τ m PUnit) := rfl
  rw [hrun, ends_map, ends_stateT_modify]

omit [LawfulMonad m] in
/-- A run in the larger monad is one in the smaller monad that hands the state on. -/
theorem ends_run {x : StateT τ m α} {t : τ} {Q : α × τ → own × σ → Prop} :
    Ends (x.run t) s Q E ↔
      Ends x ((t, s.1), s.2) (fun a p => Q (a, p.1.1) (p.1.2, p.2)) E := by
  have hexec : exec x ((t, s.1), s.2) =
      match exec (x.run t) s with
      | (r, s') => (r.map fun q => (q.1.1, q.1.2, q.2), s') := rfl
  rw [Ends, Ends, hexec]
  rcases exec (x.run t) s with ⟨_ | a, s'⟩ <;> rfl

end

/-! ## Runs that do the same

Two runs do the same from `s` if `exec` has the same outcome for both. Behind a common start only
the states count that it leads to.
-/

section
variable {s : own × σ}

theorem exec_bind_congr {x y : m α} {f g : α → m β} (hx : exec x s = exec y s)
    (hf : ∀ a s', EndsWith y s a s' → exec (f a) s' = exec (g a) s') :
    exec (x >>= f) s = exec (y >>= g) s := by
  rw [exec_bind, exec_bind, hx]
  rcases hy : exec y s with ⟨_ | ⟨a, t⟩, s'⟩
  · rfl
  · exact hf a (t, s') hy

theorem exec_run_bind_congr {x y : ExceptT ε m α} {f g : α → ExceptT ε m β}
    (hx : exec x.run s = exec y.run s)
    (hf : ∀ a s', EndsWith y.run s (.ok a) s' → exec (f a).run s' = exec (g a).run s') :
    exec (x >>= f).run s = exec (y >>= g).run s := by
  rw [ExceptT.run_bind, ExceptT.run_bind]
  refine exec_bind_congr hx fun r s' hr => ?_
  cases r with
  | error e => rfl
  | ok a => exact hf a s' hr

theorem exec_run_lift_congr [LawfulMonad m] {x y : m α} (h : exec x s = exec y s) :
    exec (ExceptT.lift x : ExceptT ε m α).run s = exec (ExceptT.lift y : ExceptT ε m α).run s := by
  rw [ExceptT.run_lift, ExceptT.run_lift, map_eq_pure_bind, map_eq_pure_bind]
  exact exec_bind_congr h fun _ _ _ => rfl

theorem exec_tryCatch_congr {x y : m α} (handler : Abort → m α) (h : exec x s = exec y s) :
    exec (tryCatchThe Abort x handler) s = exec (tryCatchThe Abort y handler) s := by
  rw [exec_tryCatch, exec_tryCatch, h]

theorem exec_stateT_run (x : StateT τ m α) (p : (τ × own) × σ) :
    exec x p = match exec (x.run p.1.1) (p.1.2, p.2) with
      | (r, s') => (r.map fun q => (q.1.1, q.1.2, q.2), s') := rfl

theorem exec_stateT_lift_congr {x y : m α} {p : (τ × own) × σ}
    (h : exec x (p.1.2, p.2) = exec y (p.1.2, p.2)) :
    exec (StateT.lift x : StateT τ m α) p = exec (StateT.lift y : StateT τ m α) p := by
  have hrun : exec ((StateT.lift x : StateT τ m α).run p.1.1) (p.1.2, p.2) =
      exec ((StateT.lift y : StateT τ m α).run p.1.1) (p.1.2, p.2) := by
    rw [StateT.run_lift, StateT.run_lift]
    exact exec_bind_congr h fun _ _ _ => rfl
  rw [exec_stateT_run, exec_stateT_run, hrun]

theorem exec_run_congr {x y : StateT τ m α} {t : τ}
    (h : exec x ((t, s.1), s.2) = exec y ((t, s.1), s.2)) :
    exec (x.run t) s = exec (y.run t) s := by
  rw [exec_stateT_run, exec_stateT_run] at h
  dsimp only at h
  rcases hx : exec (x.run t) s with ⟨_ | ⟨⟨a, t₁⟩, o⟩, s₁⟩ <;>
    rcases hy : exec (y.run t) s with ⟨_ | ⟨⟨b, t₂⟩, o'⟩, s₂⟩ <;>
    rw [hx, hy] at h <;> cases h <;> rfl

end

end JvmSymbols
