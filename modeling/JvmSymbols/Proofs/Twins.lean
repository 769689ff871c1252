import JvmSymbols.Digest.Sink
import JvmSymbols.FileSystem.Buffer
import JvmSymbols.Proofs.Runs

/-!
# Two runs side by side

`BothEnd` says how two runs end that are not given up, each from a state of its own. A run overlooks
what two states differ in if it ends with the same from either and leaves states that differ in no
more (`Overlooks`); sinks are built from others without looking at more.
-/

namespace JvmSymbols

open Archive (Abort)
open FileSystem (Fault)

variable {m : Type → Type} [Monad m] [MonadExceptOf Abort m] {own σ τ α β γ δ ε ε' : Type}
  [RunsOver own σ m] {s t : own × σ} {Same : own × σ → own × σ → Prop}

theorem endsWith_iff {x : m α} {a : α} {s' : own × σ} :
    EndsWith x s a s' ↔ Ends x s (fun b t => b = a ∧ t = s') fun _ => False := by
  constructor
  · intro h
    rw [Ends, h]
    exact ⟨rfl, rfl⟩
  · intro h
    obtain ⟨b, t, hx, rfl, rfl⟩ := h.exists_endsWith
    exact hx

/-! ## Runs that get to their end -/

/-- A run in two steps gets to its end if both steps do. -/
theorem endsWith_run_bind_ok {x : ExceptT ε m α} {f : α → ExceptT ε m β} {b : β} {s' : own × σ} :
    EndsWith (x >>= f).run s (.ok b) s' ↔
      ∃ a s₁, EndsWith x.run s (.ok a) s₁ ∧ EndsWith (f a).run s₁ (.ok b) s' := by
  constructor
  · intro h
    obtain ⟨r, s₁, hx, hr⟩ := (ends_run_bind.mp (endsWith_iff.mp h)).exists_endsWith
    cases r with
    | error e => cases hr.1
    | ok a => exact ⟨a, s₁, hx, endsWith_iff.mpr hr⟩
  · rintro ⟨a, s₁, hx, hf⟩
    rw [EndsWith, exec_run_bind_of_endsWith hx]
    exact hf

theorem endsWith_run_adapt_ok [LawfulMonad m] {x : ExceptT ε' m α} {f : ε' → ε} {a : α}
    {s' : own × σ} : EndsWith (x.adapt f).run s (.ok a) s' ↔ EndsWith x.run s (.ok a) s' := by
  refine ⟨fun h => endsWith_iff.mpr ?_, EndsWith.adapt⟩
  refine (ends_run_adapt.mp (endsWith_iff.mp h)).mono fun r t hr => ?_
  cases r with
  | error e => cases hr.1
  | ok b =>
    cases hr.1
    exact ⟨rfl, hr.2⟩

theorem endsWith_run_lift_ok [LawfulMonad m] {x : m α} {a : α} {s' : own × σ} :
    EndsWith (ExceptT.lift x : ExceptT ε m α).run s (.ok a) s' ↔ EndsWith x s a s' := by
  refine ⟨fun h => endsWith_iff.mpr ?_, EndsWith.lift⟩
  exact (ends_run_lift.mp (endsWith_iff.mp h)).mono fun _ _ hr => ⟨Except.ok.inj hr.1, hr.2⟩

theorem endsWith_run_mk_ok {r : Except ε α} {a : α} {s' : own × σ} :
    EndsWith (ExceptT.mk (pure r) : ExceptT ε m α).run s (.ok a) s' ↔ r = .ok a ∧ s = s' := by
  have hpure : EndsWith (ExceptT.mk (pure r) : ExceptT ε m α).run s r s := RunsOver.exec_pure _ _
  constructor
  · exact hpure.unique
  · rintro ⟨rfl, rfl⟩
    exact hpure

theorem endsWith_run_pure_ok {a b : α} {s' : own × σ} :
    EndsWith (pure a : ExceptT ε m α).run s (.ok b) s' ↔ a = b ∧ s = s' := by
  have hpure : EndsWith (pure a : ExceptT ε m α).run s (.ok a) s := RunsOver.exec_pure _ _
  constructor
  · intro h
    obtain ⟨hr, hs⟩ := hpure.unique h
    exact ⟨Except.ok.inj hr, hs⟩
  · rintro ⟨rfl, rfl⟩
    exact hpure

theorem Ends.ends {x : m α} {Q : α → own × σ → Prop} (h : Ends x s Q fun _ => False) :
    ∃ a s', EndsWith x s a s' := by
  obtain ⟨a, s', hx, -⟩ := h.exists_endsWith
  exact ⟨a, s', hx⟩

theorem EndsWith.tryCatch {x : m α} {a : α} {s' : own × σ} (handler : Abort → m α)
    (h : EndsWith x s a s') : EndsWith (tryCatchThe Abort x handler) s a s' :=
  endsWith_iff.mpr (Ends.tryCatch (endsWith_iff.mp h) fun _ _ => False.elim)

theorem EndsWith.stateT_lift [LawfulMonad m] {x : m α} {a : α} {p : (τ × own) × σ} {s' : own × σ}
    (h : EndsWith x (p.1.2, p.2) a s') :
    EndsWith (StateT.lift x : StateT τ m α) p a ((p.1.1, s'.1), s'.2) := by
  refine endsWith_iff.mpr (ends_stateT_lift.mpr ((endsWith_iff.mp h).mono ?_))
  rintro _ _ ⟨rfl, rfl⟩
  exact ⟨rfl, rfl⟩

/-! ## Ends of two runs -/

/-- From `s` and `t` the two runs end as `Q` says. -/
def BothEnd (x : m α) (s : own × σ) (y : m β) (t : own × σ)
    (Q : α → own × σ → β → own × σ → Prop) : Prop :=
  ∃ a s' b t', EndsWith x s a s' ∧ EndsWith y t b t' ∧ Q a s' b t'

/-- The results are as `V` says, and the states differ in nothing that is looked at. -/
def Alike (V : α → β → Prop) (Same : own × σ → own × σ → Prop) (a : α) (s : own × σ) (b : β)
    (t : own × σ) : Prop := V a b ∧ Same s t

/-- Both runs failed in the same way, or none did. -/
def Twins (V : α → β → Prop) : Except ε α → Except ε β → Prop
  | .ok a, .ok b => V a b
  | .error e, .error e' => e = e'
  | _, _ => False

theorem Twins.of_eq {r r' : Except ε α} (h : r = r') : Twins Eq r r' := by
  subst h
  cases r <;> rfl

theorem Twins.eq {r r' : Except ε α} (h : Twins Eq r r') : r = r' := by
  rcases r with e | a <;> rcases r' with e' | b
  · exact congrArg _ h
  · exact h.elim
  · exact h.elim
  · exact congrArg _ h

theorem Twins.mapError {V : α → β → Prop} {r : Except ε α} {r' : Except ε β} (f : ε → ε')
    (h : Twins V r r') : Twins V (r.mapError f) (r'.mapError f) := by
  rcases r with e | a <;> rcases r' with e' | b
  · exact congrArg f h
  · exact h
  · exact h
  · exact h

section
variable {Q : α → own × σ → β → own × σ → Prop} {x : m α} {y : m β}

theorem BothEnd.mono {Q' : α → own × σ → β → own × σ → Prop} (h : BothEnd x s y t Q)
    (hQ : ∀ a s' b t', Q a s' b t' → Q' a s' b t') : BothEnd x s y t Q' := by
  obtain ⟨a, s', b, t', hx, hy, hab⟩ := h
  exact ⟨a, s', b, t', hx, hy, hQ a s' b t' hab⟩

theorem BothEnd.pure {a : α} {b : β} (h : Q a s b t) :
    BothEnd (pure a : m α) s (pure b : m β) t Q :=
  ⟨a, s, b, t, RunsOver.exec_pure a s, RunsOver.exec_pure b t, h⟩

theorem BothEnd.bind {f : α → m γ} {g : β → m δ} {Q' : γ → own × σ → δ → own × σ → Prop}
    (h : BothEnd x s y t Q)
    (hfg : ∀ a s' b t', Q a s' b t' → BothEnd (f a) s' (g b) t' Q') :
    BothEnd (x >>= f) s (y >>= g) t Q' := by
  obtain ⟨a, s', b, t', hx, hy, hab⟩ := h
  obtain ⟨c, s'', d, t'', hf, hg, hcd⟩ := hfg a s' b t' hab
  exact ⟨c, s'', d, t'', hx.bind hf, hy.bind hg, hcd⟩

/-- A failure of both ends both. -/
theorem BothEnd.run_bind {x : ExceptT ε m α} {y : ExceptT ε m β} {f : α → ExceptT ε m γ}
    {g : β → ExceptT ε m δ} {V : α → β → Prop} {V' : γ → δ → Prop}
    (h : BothEnd x.run s y.run t (Alike (Twins V) Same))
    (hfg : ∀ a s' b t', V a b → Same s' t' →
      BothEnd (f a).run s' (g b).run t' (Alike (Twins V') Same)) :
    BothEnd (x >>= f).run s (y >>= g).run t (Alike (Twins V') Same) := by
  rw [ExceptT.run_bind, ExceptT.run_bind]
  refine h.bind fun r s' r' t' hr => ?_
  obtain ⟨hr, hs'⟩ := hr
  rcases r with e | a <;> rcases r' with e' | b
  · exact .pure ⟨hr, hs'⟩
  · exact hr.elim
  · exact hr.elim
  · exact hfg a s' b t' hr hs'

variable [LawfulMonad m]

theorem BothEnd.adapt {x : ExceptT ε m α} {y : ExceptT ε m β} {V : α → β → Prop} {f : ε → ε'}
    (h : BothEnd x.run s y.run t (Alike (Twins V) Same)) :
    BothEnd (x.adapt f).run s (y.adapt f).run t (Alike (Twins V) Same) := by
  obtain ⟨r, s', r', t', hx, hy, hr, hs'⟩ := h
  exact ⟨_, s', _, t', hx.adapt, hy.adapt, hr.mapError f, hs'⟩

theorem BothEnd.lift {V : α → β → Prop} (h : BothEnd x s y t (Alike V Same)) :
    BothEnd (ExceptT.lift x : ExceptT ε m α).run s (ExceptT.lift y : ExceptT ε m β).run t
      (Alike (Twins V) Same) := by
  obtain ⟨a, s', b, t', hx, hy, hab⟩ := h
  exact ⟨_, s', _, t', hx.lift, hy.lift, hab⟩

theorem EndsWith.discard {x : m α} {a : α} {s' : own × σ} (h : EndsWith x s a s') :
    EndsWith (discard x) s ⟨⟩ s' := by
  rw [Functor.discard, map_const, Function.comp_apply, map_eq_pure_bind]
  exact h.bind (RunsOver.exec_pure _ _)

theorem BothEnd.discard {V : α → β → Prop} (h : BothEnd x s y t (Alike V Same)) :
    BothEnd (discard x) s (discard y) t (Alike Eq Same) := by
  obtain ⟨a, s', b, t', hx, hy, -, hs'⟩ := h
  exact ⟨_, s', _, t', hx.discard, hy.discard, rfl, hs'⟩

end

/-! ## States beside the one that is overlooked -/

/-- The states of one's own are equal. -/
def Lifted (Same : own × σ → own × σ → Prop) (p q : (τ × own) × σ) : Prop :=
  p.1.1 = q.1.1 ∧ Same (p.1.2, p.2) (q.1.2, q.2)

theorem Lifted.equivalence (h : Equivalence Same) :
    Equivalence (Lifted (τ := τ) Same) where
  refl _ := ⟨rfl, h.refl _⟩
  symm hpq := ⟨hpq.1.symm, h.symm hpq.2⟩
  trans hpq hqr := ⟨hpq.1.trans hqr.1, h.trans hpq.2 hqr.2⟩

section
variable [LawfulMonad m] {x : m α} {y : m β} {p q : (τ × own) × σ} {V : α → β → Prop}

theorem BothEnd.stateT_lift (hp : p.1.1 = q.1.1)
    (h : BothEnd x (p.1.2, p.2) y (q.1.2, q.2) (Alike V Same)) :
    BothEnd (StateT.lift x : StateT τ m α) p (StateT.lift y : StateT τ m β) q
      (Alike V (Lifted Same)) := by
  obtain ⟨a, s', b, t', hx, hy, hab, hs'⟩ := h
  exact ⟨a, _, b, _, hx.stateT_lift, hy.stateT_lift, hab, hp, hs'⟩

end

theorem EndsWith.run {x : StateT τ m α} {a : α} {c : τ} {p : (τ × own) × σ}
    (h : EndsWith x ((c, s.1), s.2) a p) : EndsWith (x.run c) s (a, p.1.1) (p.1.2, p.2) := by
  refine endsWith_iff.mpr (ends_run.mpr ((endsWith_iff.mp h).mono ?_))
  rintro _ _ ⟨rfl, rfl⟩
  exact ⟨rfl, rfl⟩

/-- A run in the larger monad is one in the smaller monad that hands the state on. -/
theorem BothEnd.run {x : StateT τ m α} {y : StateT τ m β} {c : τ}
    {Q : α → (τ × own) × σ → β → (τ × own) × σ → Prop}
    (h : BothEnd x ((c, s.1), s.2) y ((c, t.1), t.2) Q) :
    BothEnd (x.run c) s (y.run c) t fun a s' b t' =>
      Q a.1 ((a.2, s'.1), s'.2) b.1 ((b.2, t'.1), t'.2) := by
  obtain ⟨a, p, b, q, hx, hy, hab⟩ := h
  exact ⟨_, _, _, _, hx.run, hy.run, hab⟩

/-! ## Runs that do not look -/

/-- From states that differ in nothing that is looked at, `x` ends with the same. -/
def Overlooks (Same : own × σ → own × σ → Prop) (x : m α) : Prop :=
  ∀ s t, Same s t → BothEnd x s x t (Alike Eq Same)

/-- The same for a run that may fail. -/
theorem Overlooks.twins {x : ExceptT ε m α} (h : Overlooks Same x.run) (hs : Same s t) :
    BothEnd x.run s x.run t (Alike (Twins Eq) Same) :=
  (h s t hs).mono fun _ _ _ _ hr => ⟨.of_eq hr.1, hr.2⟩

theorem overlooks_of_twins {x : ExceptT ε m α}
    (h : ∀ s t, Same s t → BothEnd x.run s x.run t (Alike (Twins Eq) Same)) :
    Overlooks Same x.run :=
  fun s t hs => (h s t hs).mono fun _ _ _ _ hr => ⟨hr.1.eq, hr.2⟩

theorem Overlooks.exists_endsWith {x : m α} (h : Overlooks Same x) (hsame : Equivalence Same)
    (s : own × σ) : ∃ a s', EndsWith x s a s' := by
  obtain ⟨a, s', -, -, hx, -, -⟩ := h s s (hsame.refl s)
  exact ⟨a, s', hx⟩

theorem overlooks_pure (a : α) : Overlooks Same (pure a : m α) := fun _ _ hs => .pure ⟨rfl, hs⟩

theorem Overlooks.bind {x : m α} {f : α → m β} (h : Overlooks Same x)
    (hf : ∀ a, Overlooks Same (f a)) : Overlooks Same (x >>= f) := by
  refine fun s t hs => (h s t hs).bind fun a s' b t' hr => ?_
  obtain ⟨rfl, hs'⟩ := hr
  exact hf a s' t' hs'

theorem Overlooks.run_bind {x : ExceptT ε m α} {f : α → ExceptT ε m β} (h : Overlooks Same x.run)
    (hf : ∀ a, Overlooks Same (f a).run) : Overlooks Same (x >>= f).run := by
  rw [ExceptT.run_bind]
  refine h.bind fun r => ?_
  cases r with
  | error e => exact overlooks_pure _
  | ok a => exact hf a

theorem Overlooks.run_tryCatch {x : ExceptT ε m α} {handler : ε → ExceptT ε m α}
    (h : Overlooks Same x.run) (hhandler : ∀ e, Overlooks Same (handler e).run) :
    Overlooks Same (tryCatch x handler).run := by
  rw [run_tryCatch_eq]
  refine h.bind fun r => ?_
  cases r with
  | error e => exact hhandler e
  | ok a => exact overlooks_pure _

theorem overlooks_run_getThe [LawfulMonad m] :
    Overlooks (Lifted Same) (getThe τ : ExceptT ε (StateT τ m) τ).run := by
  refine fun p q hpq => ⟨_, p, _, q, endsWith_iff.mpr (ends_run_getThe.mpr ⟨rfl, rfl⟩),
    endsWith_iff.mpr (ends_run_getThe.mpr ⟨rfl, rfl⟩), ?_, hpq⟩
  rw [hpq.1]

theorem overlooks_run_modifyThe [LawfulMonad m] (f : τ → τ) :
    Overlooks (Lifted Same) (modifyThe τ f : ExceptT ε (StateT τ m) PUnit).run := by
  refine fun p q hpq => ⟨_, _, _, _, endsWith_iff.mpr (ends_run_modifyThe.mpr ⟨rfl, rfl⟩),
    endsWith_iff.mpr (ends_run_modifyThe.mpr ⟨rfl, rfl⟩), rfl, congrArg f hpq.1, hpq.2⟩

theorem Overlooks.stateT_lift [LawfulMonad m] {x : m α} (h : Overlooks Same x) :
    Overlooks (Lifted Same) (StateT.lift x : StateT τ m α) :=
  fun _ _ hpq => (h _ _ hpq.2).stateT_lift hpq.1

theorem Overlooks.stateT_run {x : StateT τ m α} (h : Overlooks (Lifted Same) x) (c : τ) :
    Overlooks Same (x.run c) := by
  intro s t hs
  refine (BothEnd.run (h ((c, s.1), s.2) ((c, t.1), t.2) ⟨rfl, hs⟩)).mono ?_
  rintro ⟨a, c⟩ s' ⟨b, c'⟩ t' ⟨hab, hc, hs'⟩
  exact ⟨Prod.ext hab hc, hs'⟩

/-- A state of one's own that nobody looks at. -/
def Aside (Same : own × σ → own × σ → Prop) (p q : (τ × own) × σ) : Prop :=
  Same (p.1.2, p.2) (q.1.2, q.2)

theorem Aside.equivalence (h : Equivalence Same) : Equivalence (Aside (τ := τ) Same) where
  refl _ := h.refl _
  symm hpq := h.symm hpq
  trans hpq hqr := h.trans hpq hqr

theorem Overlooks.lift_aside [LawfulMonad m] {x : ExceptT ε m α} (h : Overlooks Same x.run) :
    Overlooks (Aside Same) (Sink.lift x : ExceptT ε (StateT τ m) α).run := by
  intro p q hpq
  obtain ⟨a, s', b, t', hx, hy, hab, hs'⟩ := h _ _ hpq
  exact ⟨a, _, b, _, hx.stateT_lift, hy.stateT_lift, hab, hs'⟩

/-- A run that always ends tells no two equal states apart. -/
theorem overlooks_eq {x : m α} (h : ∀ s, ∃ a s', EndsWith x s a s') : Overlooks Eq x := by
  rintro s _ rfl
  obtain ⟨a, s', hx⟩ := h s
  exact ⟨a, s', a, s', hx, hx, rfl, rfl⟩

theorem Overlooks.sink_lift [LawfulMonad m] {x : ExceptT ε m α} (h : Overlooks Same x.run) :
    Overlooks (Lifted Same) (Sink.lift x : ExceptT ε (StateT τ m) α).run := h.stateT_lift

theorem Overlooks.adapt [LawfulMonad m] {x : ExceptT ε m α} {f : ε → ε'} (h : Overlooks Same x.run) :
    Overlooks Same (x.adapt f).run :=
  overlooks_of_twins fun _ _ hs => (h.twins hs).adapt

/-! ## A run that fails where the other goes on -/

/-- The second run fails, and unless the first one fails, too, it fails with `e`. -/
def Misses (e : ε) (r : Except ε α) (_ : own × σ) (r' : Except ε β) (_ : own × σ) : Prop :=
  ∃ e', r' = .error e' ∧ ∀ a, r = .ok a → e' = e

/-- Behind a failure of the second run, the first one may do whatever comes to an end. -/
theorem BothEnd.run_bind_of_misses {e : ε} {x : ExceptT ε m α} {y : ExceptT ε m β}
    {f : α → ExceptT ε m γ} {g : β → ExceptT ε m δ} (h : BothEnd x.run s y.run t (Misses e))
    (hf : ∀ a s', ∃ r s'', EndsWith (f a).run s' r s'') :
    BothEnd (x >>= f).run s (y >>= g).run t (Misses e) := by
  obtain ⟨r, s', _, t', hx, hy, e', rfl, he⟩ := h
  have hright : EndsWith (y >>= g).run t (.error e') t' := hy.bind_error
  cases r with
  | error e'' => exact ⟨_, s', _, t', hx.bind_error, hright, e', rfl, nofun⟩
  | ok a =>
    obtain ⟨r, s'', hr⟩ := hf a s'
    refine ⟨r, s'', _, t', ?_, hright, e', rfl, fun _ _ => he a rfl⟩
    rw [ExceptT.run_bind]
    exact hx.bind hr

/-- What both runs begin with may fail in both. -/
theorem BothEnd.misses_of_twins {e : ε} {x : ExceptT ε m α} {y : ExceptT ε m β}
    {f : α → ExceptT ε m γ} {g : β → ExceptT ε m δ} {V : α → β → Prop}
    (h : BothEnd x.run s y.run t (Alike (Twins V) Same))
    (hfg : ∀ a s' b t', V a b → Same s' t' →
      BothEnd (f a).run s' (g b).run t' (Misses e)) :
    BothEnd (x >>= f).run s (y >>= g).run t (Misses e) := by
  rw [ExceptT.run_bind, ExceptT.run_bind]
  refine h.bind fun r s' r' t' hr => ?_
  obtain ⟨hr, hs'⟩ := hr
  rcases r with e | a <;> rcases r' with e' | b
  · exact .pure ⟨e', rfl, nofun⟩
  · exact hr.elim
  · exact hr.elim
  · exact hfg a s' b t' hr hs'

/-! ## Sinks -/

structure Sink.Overlooks (sink : Sink m) (Same : own × σ → own × σ → Prop) : Prop where
  write (bytes : Bytes) : JvmSymbols.Overlooks Same (sink.write bytes).run
  flush : JvmSymbols.Overlooks Same sink.flush.run

section
variable {sink : Sink m}

theorem Sink.Overlooks.writeAllWithin (h : sink.Overlooks Same) (attempts : Nat) (bytes : Bytes) :
    JvmSymbols.Overlooks Same (sink.writeAllWithin attempts bytes).run := by
  induction attempts generalizing bytes with
  | zero => exact overlooks_pure _
  | succ attempts ih =>
    unfold Sink.writeAllWithin
    split
    · exact overlooks_pure _
    · refine (h.write bytes).run_bind fun n => ?_
      split
      · exact overlooks_pure _
      · exact ih _

theorem Sink.Overlooks.writeParts (h : sink.Overlooks Same) (parts : List Bytes) :
    JvmSymbols.Overlooks Same (sink.writeParts parts).run := by
  induction parts with
  | nil => exact overlooks_pure _
  | cons part parts ih => exact (h.writeAllWithin _ part).run_bind fun _ => ih

variable [LawfulMonad m]

theorem Buffer.overlooks_drainWithin (h : sink.Overlooks Same) (attempts : Nat) :
    Overlooks (Lifted Same) (drainWithin sink attempts).run := by
  induction attempts with
  | zero => exact overlooks_pure _
  | succ attempts ih =>
    refine overlooks_run_getThe.run_bind fun buffer => ?_
    split
    · exact overlooks_pure _
    · refine (h.write _).sink_lift.run_bind fun n => ?_
      split
      · exact overlooks_pure _
      · exact (overlooks_run_modifyThe _).run_bind fun _ => ih

theorem Buffer.overlooks_drain (h : sink.Overlooks Same) :
    Overlooks (Lifted Same) (drain sink).run :=
  overlooks_run_getThe.run_bind fun _ => overlooks_drainWithin h _

theorem Sink.Overlooks.buffered (h : sink.Overlooks Same) :
    sink.buffered.Overlooks (Lifted Same) where
  write bytes := by
    have hpass : JvmSymbols.Overlooks (Lifted Same) (do
        if bytes.length < Buffer.capacity then
          modifyThe Buffer (·.push bytes)
          return bytes.length
        else
          lift (sink.write bytes) : ExceptT Fault (StateT Buffer m) Nat).run := by
      split
      · exact (overlooks_run_modifyThe _).run_bind fun _ => overlooks_pure _
      · exact (h.write bytes).sink_lift
    refine overlooks_run_getThe.run_bind fun buffer => ?_
    dsimp only
    split
    · exact (Buffer.overlooks_drain h).run_bind fun _ => hpass
    · exact hpass
  flush := (Buffer.overlooks_drain h).run_bind fun _ => h.flush.sink_lift

theorem Sink.Overlooks.digesting (h : sink.Overlooks Same) :
    sink.digesting.Overlooks (Lifted Same) where
  write bytes := (h.write bytes).sink_lift.run_bind fun _ =>
    (overlooks_run_modifyThe _).run_bind fun _ => overlooks_pure _
  flush := h.flush.sink_lift

end

end JvmSymbols
