import JvmSymbols.Digest.Sink
import JvmSymbols.FileSystem.Buffer
import JvmSymbols.Proofs.Runs

/-!
# What sinks take

A sink follows `P` if `P held` says of a state that the bytes `held` were taken in all. Buffering
and hashing keep that up: what was passed on and what is held back make up what was taken.
-/

namespace JvmSymbols

open Archive (Abort)
open FileSystem (Fault)

variable {m : Type → Type} [Monad m] [MonadExceptOf Abort m] {own σ : Type}
  [RunsOver own σ m]

/-- Each write takes bytes from the front of what it is offered, and takes none if it fails. -/
structure Sink.Follows (sink : Sink m) (P : Bytes → own × σ → Prop) : Prop where
  write {held : Bytes} {s : own × σ} (bytes : Bytes) : P held s →
    Ends (sink.write bytes).run s (fun r s' =>
      match r with
      | .ok n => n ≤ bytes.length ∧ P (held ++ bytes.take n) s'
      | .error _ => P held s') fun _ => False
  flush {held : Bytes} {s : own × σ} : P held s →
    Ends sink.flush.run s (fun _ s' => P held s') fun _ => False

/-- Some first bytes of `bytes` were taken, and all of them just if there was no fault. -/
def Sink.Took {ε : Type} (P : Bytes → own × σ → Prop) (held bytes : Bytes) (r : Except ε Unit)
    (s : own × σ) : Prop :=
  ∃ taken, taken <+: bytes ∧ P (held ++ taken) s ∧ (r = .ok () ↔ taken = bytes)

namespace Sink

variable {sink : Sink m} {P : Bytes → own × σ → Prop} {held bytes : Bytes} {s : own × σ}

omit [Monad m] [MonadExceptOf Abort m] [RunsOver own σ m] in
theorem Took.nothing {ε : Type} {r : Except ε Unit} (hs : P held s) (hr : r = .ok () ↔ bytes = []) :
    Took P held bytes r s :=
  ⟨[], List.nil_prefix, (List.append_nil held).symm ▸ hs, hr.trans eq_comm⟩

omit [Monad m] [MonadExceptOf Abort m] [RunsOver own σ m] in
theorem Took.append {ε : Type} {r : Except ε Unit} {front : Bytes}
    (h : Took P (held ++ front) bytes r s) : Took P held (front ++ bytes) r s := by
  obtain ⟨taken, htaken, hs, hall⟩ := h
  refine ⟨front ++ taken, (List.prefix_append_right_inj front).mpr htaken, ?_, ?_⟩
  · rwa [← List.append_assoc]
  · rw [hall, List.append_cancel_left_eq]

theorem Follows.writeAllWithin (h : sink.Follows P) {attempts : Nat}
    (hattempts : bytes.length ≤ attempts) (hs : P held s) :
    Ends (sink.writeAllWithin attempts bytes).run s (Took P held bytes) fun _ => False := by
  induction attempts generalizing held bytes s with
  | zero =>
    refine ends_run_pure.mpr (.nothing hs (iff_of_true rfl ?_))
    exact List.eq_nil_of_length_eq_zero (Nat.le_zero.mp hattempts)
  | succ attempts ih =>
    unfold Sink.writeAllWithin
    split
    · rename_i hempty
      exact ends_run_pure.mpr (.nothing hs (iff_of_true rfl (List.isEmpty_iff.mp hempty)))
    · rename_i hempty
      have hne : bytes ≠ [] := mt List.isEmpty_iff.mpr hempty
      refine ends_run_bind.mpr ((h.write bytes hs).mono fun r s' hr => ?_)
      cases r with
      | error fault => exact .nothing hr (iff_of_false nofun hne)
      | ok n =>
        obtain ⟨hn, hs'⟩ := hr
        dsimp only
        split
        · rename_i hzero
          rw [hzero, List.take_zero, List.append_nil] at hs'
          exact ends_run_throw.mpr (.nothing hs' (iff_of_false nofun hne))
        · have hlength : (bytes.drop n).length ≤ attempts := by
            rw [List.length_drop]
            omega
          refine (ih hlength hs').mono fun r s'' hr => ?_
          rw [← List.take_append_drop n bytes]
          exact hr.append

theorem Follows.writeParts (h : sink.Follows P) (parts : List Bytes) (hs : P held s) :
    Ends (sink.writeParts parts).run s (Took P held parts.flatten) fun _ => False := by
  induction parts generalizing held s with
  | nil => exact ends_run_pure.mpr (.nothing hs (iff_of_true rfl rfl))
  | cons part parts ih =>
    rw [List.flatten_cons]
    refine ends_run_bind.mpr ((h.writeAllWithin (Nat.le_refl _) hs).mono fun r s' hr => ?_)
    obtain ⟨taken, htaken, hs', hall⟩ := hr
    cases r with
    | error fault =>
      refine ⟨taken, htaken.trans (List.prefix_append _ _), hs', iff_of_false nofun fun hwhole => ?_⟩
      have hlength := htaken.length_le
      rw [hwhole, List.length_append] at hlength
      have hpart : taken = part := htaken.eq_of_length_le (by rw [hwhole, List.length_append]; omega)
      exact nomatch hall.mpr hpart
    | ok _ =>
      rw [hall.mp rfl] at hs'
      exact (ih hs').mono fun _ _ hr => hr.append

end Sink

variable [LawfulMonad m]

/-! ## Bytes that are held back -/

namespace Buffer

/-- What was passed on, of which `P` tells, makes up `held` with what is held back. -/
def Behind (P : Bytes → own × σ → Prop) (held : Bytes) (s : (Buffer × own) × σ) : Prop :=
  ∃ front, P front (s.1.2, s.2) ∧ front ++ s.1.1.pending.toList = held

variable {inner : Sink m} {P : Bytes → own × σ → Prop} {held : Bytes} {s : (Buffer × own) × σ}

omit [Monad m] [MonadExceptOf Abort m] [RunsOver own σ m] [LawfulMonad m] in
theorem Behind.passed (h : Behind P held s) (hsize : s.1.1.pending.size = 0) :
    P held (s.1.2, s.2) := by
  obtain ⟨front, hfront, hheld⟩ := h
  rw [Array.eq_empty_of_size_eq_zero hsize] at hheld
  rwa [← hheld, List.append_nil]

theorem ends_drainWithin (h : inner.Follows P) {attempts : Nat}
    (hattempts : s.1.1.pending.size ≤ attempts) (hs : Behind P held s) :
    Ends (drainWithin inner attempts).run s (fun r s' =>
      Behind P held s' ∧ (r = .ok () → s'.1.1.pending.size = 0)) fun _ => False := by
  induction attempts generalizing s with
  | zero => exact ends_run_pure.mpr ⟨hs, fun _ => Nat.le_zero.mp hattempts⟩
  | succ attempts ih =>
    obtain ⟨front, hfront, hheld⟩ := hs
    refine ends_run_bind.mpr (ends_run_getThe.mpr ?_)
    dsimp only
    split
    · rename_i hempty
      refine ends_run_pure.mpr ⟨⟨front, hfront, hheld⟩, fun _ => ?_⟩
      exact Array.size_eq_zero_iff.mpr (Array.isEmpty_iff.mp hempty)
    · refine ends_run_bind.mpr (ends_sink_lift.mpr ((h.write _ hfront).mono fun r s' hr => ?_))
      cases r with
      | error fault => exact ⟨⟨front, hr, hheld⟩, nofun⟩
      | ok n =>
        obtain ⟨hn, hs'⟩ := hr
        dsimp only
        split
        · rename_i hzero
          rw [hzero, List.take_zero, List.append_nil] at hs'
          exact ends_run_throw.mpr ⟨⟨front, hs', hheld⟩, nofun⟩
        · refine ends_run_bind.mpr (ends_run_modifyThe.mpr (ih ?_ ⟨_, hs', ?_⟩))
          · simp only [drop, List.size_toArray, List.length_drop, Array.length_toList]
            omega
          · rw [← hheld, List.append_assoc]
            exact congrArg (front ++ ·) (List.take_append_drop n _)

/-- All that is held back is passed on, unless there is a fault. -/
theorem ends_drain (h : inner.Follows P) (hs : Behind P held s) :
    Ends (drain inner).run s (fun r s' =>
      Behind P held s' ∧ (r = .ok () → s'.1.1.pending.size = 0)) fun _ => False :=
  ends_run_bind.mpr (ends_run_getThe.mpr (ends_drainWithin h (Nat.le_refl _) hs))

theorem ends_drain_of_size_eq_zero {Q : Except Fault Unit → (Buffer × own) × σ → Prop} {E : σ → Prop}
    (hsize : s.1.1.pending.size = 0) (hs : Q (.ok ()) s) : Ends (drain inner).run s Q E := by
  refine ends_run_bind.mpr (ends_run_getThe.mpr ?_)
  dsimp only
  rw [hsize]
  exact ends_run_pure.mpr hs

theorem ends_flush_buffered (h : inner.Follows P) (hs : Behind P held s) :
    Ends inner.buffered.flush.run s (fun r s' =>
      Behind P held s' ∧ (r = .ok () → s'.1.1.pending.size = 0)) fun _ => False := by
  refine ends_run_bind.mpr ((ends_drain h hs).mono fun r s' hr => ?_)
  cases r with
  | error fault => exact ⟨hr.1, nofun⟩
  | ok _ =>
    obtain ⟨⟨front, hfront, hheld⟩, hsize⟩ := hr
    refine ends_sink_lift.mpr ((h.flush hfront).mono fun _ _ hs' => ?_)
    exact ⟨⟨front, hs', hheld⟩, fun _ => hsize rfl⟩

end Buffer

open Buffer (Behind)

namespace Sink.Follows

variable {inner : Sink m} {P : Bytes → own × σ → Prop}

/-- A write that finds room adds to what is held back; any other finds nothing held back. -/
theorem buffered (h : inner.Follows P) : inner.buffered.Follows (Behind P) where
  write {held s} bytes hs := by
    have hpass {s' : (Buffer × own) × σ} (hs' : Behind P held s')
        (hempty : Buffer.capacity ≤ bytes.length → s'.1.1.pending.size = 0) :
        Ends (do
            if bytes.length < Buffer.capacity then
              modifyThe Buffer (·.push bytes)
              return bytes.length
            else
              lift (inner.write bytes) : ExceptT Fault (StateT Buffer m) Nat).run s'
          (fun r s'' =>
            match r with
            | .ok n => n ≤ bytes.length ∧ Behind P (held ++ bytes.take n) s''
            | .error _ => Behind P held s'') fun _ => False := by
      split
      · obtain ⟨front, hfront, hheld⟩ := hs'
        refine ends_run_bind.mpr (ends_run_modifyThe.mpr
          (ends_run_pure.mpr ⟨Nat.le_refl _, front, hfront, ?_⟩))
        rw [List.take_length, ← hheld, List.append_assoc]
        simp [Buffer.push]
      · rename_i hlarge
        have hsize := hempty (Nat.le_of_not_lt hlarge)
        refine ends_sink_lift.mpr ((h.write bytes (hs'.passed hsize)).mono fun r s'' hr => ?_)
        have hnone : s'.1.1.pending.toList = [] := by
          rw [Array.eq_empty_of_size_eq_zero hsize]
        cases r with
        | error fault => exact ⟨held, hr, by rw [hnone, List.append_nil]⟩
        | ok n => exact ⟨hr.1, held ++ bytes.take n, hr.2, by rw [hnone, List.append_nil]⟩
    refine ends_run_bind.mpr (ends_run_getThe.mpr ?_)
    dsimp only
    split
    · refine ends_run_bind.mpr ((Buffer.ends_drain h hs).mono fun r s' hr => ?_)
      cases r with
      | error fault => exact hr.1
      | ok _ => exact hpass hr.1 fun _ => hr.2 rfl
    · rename_i hroom
      refine hpass hs fun hlarge => ?_
      rw [Buffer.spare] at hroom
      have : 0 < Buffer.capacity := by decide
      omega
  flush hs := (Buffer.ends_flush_buffered h hs).mono fun _ _ hr => hr.1

end Sink.Follows

/-! ## Bytes that are hashed -/

/-- The digest is fed with just what was taken. -/
def Digest.Along (P : Bytes → own × σ → Prop) (held : Bytes) (s : (Digest × own) × σ) : Prop :=
  P held (s.1.2, s.2) ∧ s.1.1.taken.toList = held

theorem Sink.Follows.digesting {inner : Sink m} {P : Bytes → own × σ → Prop} (h : inner.Follows P) :
    inner.digesting.Follows (Digest.Along P) where
  write {held s} bytes hs := by
    refine ends_run_bind.mpr (ends_sink_lift.mpr ((h.write bytes hs.1).mono fun r s' hr => ?_))
    cases r with
    | error fault => exact ⟨hr, hs.2⟩
    | ok n =>
      refine ends_run_bind.mpr (ends_run_modifyThe.mpr (ends_run_pure.mpr ⟨hr.1, hr.2, ?_⟩))
      rw [Digest.toList_taken_feed, hs.2]
  flush {held s} hs :=
    ends_sink_lift.mpr ((h.flush hs.1).mono fun _ _ hr => ⟨hr, hs.2⟩)

end JvmSymbols
