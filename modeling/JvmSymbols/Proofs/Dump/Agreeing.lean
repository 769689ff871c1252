import JvmSymbols.Proofs.Dump.Stages

/-!
# Candidates that read alike

A report does not tell where its candidates come from: if two families of candidates have the same
names and reading them does the same in all states that a run can come to, their reports are made
by the same run (`exec_makeReport_congr`).
-/

namespace JvmSymbols

open Archive (Abort)
open Dump (Failure)
open RunsOver (exec)

variable {m : Type → Type} [Monad m] [LawfulMonad m] [MonadExceptOf Abort m] {own σ α : Type}
  [RunsOver own σ m] {P : Bytes → own × σ → Prop} {E : σ → Prop}
  {Gives : String → Except Failure Bytes → Prop}

/-- The candidates have one name, and where `P` holds reading either does the same. -/
def Candidate.Agree (P : Bytes → own × σ → Prop) (c c' : Candidate m) : Prop :=
  c.name = c'.name ∧ ∀ held s, P held s → exec c.read.run s = exec c'.read.run s

namespace Dump

/-! ## Batches -/

variable {settings : Settings} {sink : Sink m} {tally : Tally} {keys : List α}
  {c c' : α → Candidate m} {held : Bytes} {s : own × σ}

omit [LawfulMonad m] in
theorem exec_readAhead_congr (policy : Policy) (h : ∀ key ∈ keys, (c key).Agree P (c' key))
    (hkeeps : ∀ key ∈ keys, (c' key).Keeps P E Gives) (hs : P held s) :
    exec (readAhead policy (keys.map c)) s = exec (readAhead policy (keys.map c')) s := by
  induction keys generalizing s with
  | nil => rfl
  | cons key keys ih =>
    obtain ⟨⟨hname, hread⟩, h⟩ := List.forall_mem_cons.mp h
    obtain ⟨hkey, hkeeps⟩ := List.forall_mem_cons.mp hkeeps
    refine exec_bind_congr (hread held s hs) fun r s' hr => ?_
    have hs' : P held s' := ((hkey held s hs).of_endsWith hr).1
    have hon : exec (do return ((c' key).name, r) :: (← readAhead policy (keys.map c)) :
          m (List Pending)) s' =
        exec (do return ((c' key).name, r) :: (← readAhead policy (keys.map c'))) s' :=
      exec_bind_congr (ih h hkeeps hs') fun _ _ _ => rfl
    rw [hname]
    cases r with
    | ok bytes => exact hon
    | error failure =>
      cases policy with
      | failFast => rfl
      | skipAndContinue => exact hon

theorem exec_writeBatch_congr (h : ∀ key ∈ keys, (c key).Agree P (c' key))
    (hkeeps : ∀ key ∈ keys, (c' key).Keeps P E Gives) (hs : P held s) :
    exec (writeBatch settings sink tally (keys.map c)).run s =
      exec (writeBatch settings sink tally (keys.map c')).run s :=
  exec_run_bind_congr (exec_run_lift_congr (exec_readAhead_congr _ h hkeeps hs)) fun _ _ _ => rfl

theorem exec_writeBatches_congr (hsink : sink.Follows P) {chunks : List (List α)}
    (h : ∀ key ∈ chunks.flatten, (c key).Agree P (c' key))
    (hkeeps : ∀ key ∈ chunks.flatten, (c' key).Keeps P E Gives) (hs : P held s) :
    exec ((chunks.map (·.map c)).foldlM (writeBatch settings sink) tally).run s =
      exec ((chunks.map (·.map c')).foldlM (writeBatch settings sink) tally).run s := by
  induction chunks generalizing tally held s with
  | nil => rfl
  | cons chunk chunks ih =>
    rw [List.flatten_cons] at h hkeeps
    obtain ⟨hchunk, h⟩ := List.forall_mem_append.mp h
    obtain ⟨hchunkKeeps, hkeeps⟩ := List.forall_mem_append.mp hkeeps
    rw [List.map_cons, List.map_cons, List.foldlM_cons, List.foldlM_cons]
    refine exec_run_bind_congr (exec_writeBatch_congr hchunk hchunkKeeps hs) fun tally' s' hr => ?_
    have hbatch : ∀ c ∈ chunk.map c', c.Keeps P E Gives := List.forall_mem_map.mpr hchunkKeeps
    obtain ⟨pending, -, -, hs'⟩ := (ends_writeBatch hsink hbatch hs).of_endsWith hr
    exact ih h hkeeps hs'

theorem exec_writeEntries_congr (hsink : sink.Follows P)
    (h : ∀ key ∈ keys, (c key).Agree P (c' key))
    (hkeeps : ∀ key ∈ keys, (c' key).Keeps P E Gives) (hs : P held s) :
    exec (writeEntries settings sink (keys.map c)).run s =
      exec (writeEntries settings sink (keys.map c')).run s := by
  rw [writeEntries, writeEntries, chunks_map, chunks_map]
  rw [← flatten_chunks keys] at h hkeeps
  exact exec_writeBatches_congr hsink h hkeeps hs

/-! ## The file -/

open Buffer (Behind)
open Digest (Along)

variable {file : Sink m} {F : Bytes → σ → Prop} {may : Prop}

omit [LawfulMonad m] in
theorem Agree.lift_releasing {c c' : Candidate m} (h : c.Agree (fun held s => F held s.2) c') :
    ((releasing file c).lift : Candidate (StateT Digest (StateT Buffer m))).Agree
      (Along (Behind fun held s => F held s.2)) (releasing file c').lift := by
  obtain ⟨hname, hread⟩ := h
  refine ⟨hname, fun held s hs => exec_stateT_lift_congr ?_⟩
  obtain ⟨⟨front, hfront, -⟩, -⟩ := hs
  exact exec_tryCatch_congr _ (exec_stateT_lift_congr (hread front _ hfront))

theorem exec_fillFile_congr (hfile : file.Follows fun held s => F held s.2)
    (h : ∀ key ∈ keys, (c key).Agree (fun held s => F held s.2) (c' key))
    (hkeeps : ∀ key ∈ keys,
      (c' key).Keeps (fun held s => F held s.2) (GivenUp may F) Gives)
    (hs : F [] s.2) :
    exec (fillFile settings file (keys.map c)) s =
      exec (fillFile settings file (keys.map c')) s := by
  have hstart : Along (Behind fun held s => F held s.2) []
      ((Digest.empty, Buffer.empty, s.1), s.2) :=
    ⟨⟨[], hs, rfl⟩, rfl⟩
  have hfill : exec (fill settings file (keys.map c)).run ((.empty, .empty, s.1), s.2) =
      exec (fill settings file (keys.map c')).run ((.empty, .empty, s.1), s.2) := by
    rw [fill, fill, List.map_map, List.map_map]
    refine exec_run_bind_congr (exec_writeEntries_congr hfile.buffered.digesting
      (fun key hkey => Agree.lift_releasing (h key hkey))
      (fun key hkey => keeps_lift_releasing hfile (hkeeps key hkey)) hstart) fun _ _ _ => rfl
  exact exec_bind_congr (exec_run_congr (exec_run_congr hfill)) fun _ _ _ => rfl

/-! ## The report -/

open CarriesTree (tree)
open FileTree (Appended)

variable [FileSystem m] [CarriesTree own σ m]

/-- Candidates that read alike once the temporary file is open make the same report. -/
theorem exec_makeReport_congr
    (h : ∀ parents here opened, FileTree.Made settings.output.above (tree m s.2) parents →
      parents.create (temporary settings.output) = .ok (here, opened) →
      ∀ key ∈ keys, (c key).Agree (fun held s => Appended here held opened (tree m s.2)) (c' key))
    (hquiet : ∀ key ∈ keys, Quiet Gives (c' key)) :
    exec (makeReport settings (keys.map c)).run s =
      exec (makeReport settings (keys.map c')).run s := by
  refine exec_run_bind_congr rfl fun _ s₁ hparents => ?_
  refine exec_run_bind_congr rfl fun file s₂ hopen => ?_
  have hmade := (ends_makeParent settings.output s).of_endsWith hparents
  obtain ⟨here, hcreate, hfile⟩ : ∃ here,
      (tree m s₁.2).create (temporary settings.output) = .ok (here, tree m s₂.2) ∧
        file.AppendsTo (tree m) here := by
    have hends : Ends ((FileSystem.create (temporary settings.output)).adapt
        (Failure.unwritable (temporary settings.output)) : ExceptT Failure m (Sink m)).run s₁
        (fun r s₂ => ∀ file, r = .ok file → ∃ here,
          (tree m s₁.2).create (temporary settings.output) = .ok (here, tree m s₂.2) ∧
            file.AppendsTo (tree m) here) fun _ => False := by
      refine ends_run_adapt.mpr ((CarriesTree.create _ s₁).mono fun r s₂ hr => ?_)
      cases r with
      | error fault => exact nofun
      | ok sink =>
        rintro _ ⟨⟩
        exact hr
    exact hends.of_endsWith hopen file rfl
  have hfill : exec (fillFile settings file (keys.map c)) s₂ =
      exec (fillFile settings file (keys.map c')) s₂ :=
    exec_fillFile_congr (F := fun held s => Appended here held (tree m s₂.2) (tree m s))
      (follows_of_appendsTo hfile _) (h _ here _ hmade hcreate)
      (fun key hkey => (hquiet key hkey).keeps here _) (.nothing here _)
  refine exec_run_bind_congr (exec_run_lift_congr hfill) fun r s₃ _ => ?_
  rw [List.length_map, List.length_map]

end Dump

end JvmSymbols
