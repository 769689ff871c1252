import JvmSymbols.Dump.Report
import JvmSymbols.Proofs.Dump.Outline
import JvmSymbols.Proofs.FileSystem.SinkRuns
import Mathlib.Data.List.Forall2

/-!
# What a report is filled with

The bytes that a dump writes are the lines of the candidates that were read and parsed
(`ends_fillFile`). However it ends, what is in the file follows what was written so far.
-/

namespace JvmSymbols

open Archive (Abort)
open Dump (Failure)

/-! ## Lines -/

namespace Utf8

theorem encode_append (a b : String) : encode (a ++ b) = encode a ++ encode b := by
  simp [encode]

theorem encode_join (texts : List String) :
    encode (String.join texts) = (texts.map encode).flatten := by
  have hfold (front : String) : encode (texts.foldl (· ++ ·) front) =
      encode front ++ (texts.map encode).flatten := by
    induction texts generalizing front with
    | nil => simp
    | cons text texts ih => simp [ih, encode_append]
  exact hfold ""

end Utf8

theorem Symbol.encode_render (symbols : List Symbol) (format : ReportFormat) :
    Utf8.encode (render symbols format) =
      ((symbols.flatMap (·.pieces format)).map Utf8.encode).flatten := by
  rw [render, Utf8.encode_join, List.map_map]
  induction symbols with
  | nil => rfl
  | cons s symbols ih => simp_all [line, Utf8.encode_join]

theorem Symbol.encode_render_append (xs ys : List Symbol) (format : ReportFormat) :
    Utf8.encode (render (xs ++ ys) format) =
      Utf8.encode (render xs format) ++ Utf8.encode (render ys format) := by
  simp [encode_render]

namespace Dump

/-- The symbols of the candidates that were parsed. -/
def kept (results : List Parsed) : List Symbol := results.flatMap fun r => r.toOption.getD []

theorem written_eq_kept {policy : Policy} {results : List Parsed} {tally tally' : Tally}
    (h : results.foldlM (Tally.step policy) tally = .ok tally') :
    written policy results = kept results := by
  induction results generalizing tally with
  | nil => rfl
  | cons result results ih =>
    cases result with
    | ok symbols =>
      rw [written, kept, List.flatMap_cons]
      exact congrArg (symbols ++ ·) (ih h)
    | error failure =>
      cases policy with
      | failFast => cases h
      | skipAndContinue => exact ih h

end Dump

variable {m : Type → Type} [Monad m] [LawfulMonad m] [MonadExceptOf Abort m] {own σ : Type}
  [RunsOver own σ m] {P : Bytes → own × σ → Prop} {E : σ → Prop}
  {Gives : String → Except Failure Bytes → Prop}

/-- Reading the candidate does not touch what `P` tells of, and gives something that `Gives` allows
under its name. -/
def Candidate.Keeps (c : Candidate m) (P : Bytes → own × σ → Prop) (E : σ → Prop)
    (Gives : String → Except Failure Bytes → Prop) : Prop :=
  ∀ held s, P held s → Ends c.read.run s (fun r s' => P held s' ∧ Gives c.name r) E

namespace Dump

variable {settings : Settings} {sink : Sink m} {tally : Tally} {candidates : List (Candidate m)}
  {held : Bytes} {s : own × σ}

/-! ## Reading -/

/-- The pending result is that of the candidate. -/
def Gave (Gives : String → Except Failure Bytes → Prop) (c : Candidate m)
    (pending : Pending) : Prop :=
  pending.1 = c.name ∧ Gives c.name pending.2

omit [LawfulMonad m] in
/-- All candidates are read, unless a failure is to end the run. -/
theorem ends_readAhead (policy : Policy) (h : ∀ c ∈ candidates, c.Keeps P E Gives) (hs : P held s) :
    Ends (readAhead policy candidates) s (fun pending s' =>
      P held s' ∧ (List.Forall₂ (Gave Gives) candidates pending ∨
        policy = .failFast ∧ ∃ front name failure,
          pending = front ++ [(name, .error failure)])) E := by
  induction candidates generalizing s with
  | nil => exact ends_pure.mpr ⟨hs, .inl .nil⟩
  | cons c candidates ih =>
    obtain ⟨hc, hcandidates⟩ := List.forall_mem_cons.mp h
    refine ends_bind.mpr ((hc held s hs).mono fun result s' hr => ?_)
    obtain ⟨hs', hgives⟩ := hr
    have hon : Ends (do return (c.name, result) :: (← readAhead policy candidates) : m (List Pending))
        s' (fun pending s'' =>
          P held s'' ∧ (List.Forall₂ (Gave Gives) (c :: candidates) pending ∨
            policy = .failFast ∧ ∃ front name failure,
              pending = front ++ [(name, .error failure)])) E := by
      refine ends_bind.mpr ((ih hcandidates hs').mono fun pending s'' hr => ?_)
      obtain ⟨hs'', hall | ⟨hpolicy, front, name, failure, rfl⟩⟩ := hr
      · exact ends_pure.mpr ⟨hs'', .inl (.cons ⟨rfl, hgives⟩ hall)⟩
      · exact ends_pure.mpr ⟨hs'', .inr ⟨hpolicy, (c.name, result) :: front, name, failure, rfl⟩⟩
    cases result with
    | ok bytes => exact hon
    | error failure =>
      cases policy with
      | failFast => exact ends_pure.mpr ⟨hs', .inr ⟨rfl, [], c.name, failure, rfl⟩⟩
      | skipAndContinue => exact hon

theorem foldlM_step_ne_ok (front : List Parsed) (failure : Failure) (tally tally' : Tally) :
    (front ++ [Except.error failure]).foldlM (Tally.step .failFast) tally ≠ .ok tally' := by
  rw [List.foldlM_append]
  cases front.foldlM (Tally.step .failFast) tally <;> exact nofun

/-! ## Writing -/

theorem ends_writeLines (h : sink.Follows P) (symbols : List Symbol) (hs : P held s) :
    Ends (writeLines settings sink symbols).run s
      (Sink.Took P held (Utf8.encode (Symbol.render symbols settings.format))) E := by
  rw [Symbol.encode_render]
  refine ends_run_adapt.mpr ((h.writeParts _ hs).of_false fun r s' hr => ?_)
  obtain ⟨taken, htaken, hs', hall⟩ := hr
  refine ⟨taken, htaken, hs', Iff.trans ?_ hall⟩
  cases r with
  | ok _ => exact iff_of_true rfl rfl
  | error fault => exact iff_of_false nofun nofun

/-- What holds once candidates are handled: their lines were written and they are counted. If the
run fails, only part of the lines was. -/
def Handled (settings : Settings) (P : Bytes → own × σ → Prop)
    (Gives : String → Except Failure Bytes → Prop) (candidates : List (Candidate m)) (tally : Tally)
    (held : Bytes) (r : Except Failure Tally) (s : own × σ) : Prop :=
  match r with
  | .ok tally' =>
    ∃ pending, List.Forall₂ (Gave Gives) candidates pending ∧
      (pending.map Pending.parse).foldlM (Tally.step settings.policy) tally = .ok tally' ∧
      P (held ++ Utf8.encode (Symbol.render (kept (pending.map Pending.parse)) settings.format)) s
  | .error _ => ∃ held', P held' s

theorem ends_writeBatch (h : sink.Follows P) (hcandidates : ∀ c ∈ candidates, c.Keeps P E Gives)
    (hs : P held s) :
    Ends (writeBatch settings sink tally candidates).run s
      (Handled settings P Gives candidates tally held) E := by
  refine ends_run_bind.mpr (ends_run_lift.mpr ?_)
  refine (ends_readAhead settings.policy hcandidates hs).mono fun pending s' hr => ?_
  obtain ⟨hs', hread⟩ := hr
  dsimp only
  rw [foldlM_handle]
  refine ends_run_bind.mpr ((ends_writeLines h _ hs').mono fun r s'' hr => ?_)
  obtain ⟨taken, -, hs'', hall⟩ := hr
  cases r with
  | error failure => exact ⟨_, hs''⟩
  | ok _ =>
    rw [hall.mp rfl] at hs''
    refine ends_pure.mpr ?_
    rcases hfold : (pending.map Pending.parse).foldlM (Tally.step settings.policy) tally
      with _ | tally'
    · exact ⟨_, hs''⟩
    · rw [written_eq_kept hfold] at hs''
      rcases hread with hread | ⟨hpolicy, front, name, failure, rfl⟩
      · exact ⟨pending, hread, hfold, hs''⟩
      · rw [hpolicy, List.map_append] at hfold
        exact absurd hfold (foldlM_step_ne_ok _ failure _ _)

theorem ends_writeBatches (h : sink.Follows P) {chunks : List (List (Candidate m))}
    (hchunks : ∀ c ∈ chunks.flatten, c.Keeps P E Gives) (hs : P held s) :
    Ends (chunks.foldlM (writeBatch settings sink) tally).run s
      (Handled settings P Gives chunks.flatten tally held) E := by
  induction chunks generalizing tally held s with
  | nil =>
    refine ends_run_pure.mpr ⟨[], .nil, rfl, ?_⟩
    rw [List.map_nil, kept, List.flatMap_nil]
    exact (List.append_nil held).symm ▸ hs
  | cons chunk chunks ih =>
    rw [List.flatten_cons] at hchunks ⊢
    obtain ⟨hchunk, hrest⟩ := List.forall_mem_append.mp hchunks
    rw [List.foldlM_cons]
    refine ends_run_bind.mpr ((ends_writeBatch h hchunk hs).mono fun r s' hr => ?_)
    cases r with
    | error failure => exact hr
    | ok tally' =>
      obtain ⟨pending, hpending, hfold, hs'⟩ := hr
      refine (ih hrest hs').mono fun r s'' hr => ?_
      cases r with
      | error failure => exact hr
      | ok tally'' =>
        obtain ⟨pending', hpending', hfold', hs''⟩ := hr
        refine ⟨pending ++ pending', List.rel_append hpending hpending', ?_, ?_⟩
        · rw [List.map_append, List.foldlM_append, hfold]
          exact hfold'
        · rwa [List.map_append, kept, List.flatMap_append, Symbol.encode_render_append,
            ← List.append_assoc]

theorem ends_writeEntries (h : sink.Follows P) (hcandidates : ∀ c ∈ candidates, c.Keeps P E Gives)
    (hs : P held s) :
    Ends (writeEntries settings sink candidates).run s
      (Handled settings P Gives candidates Tally.zero held) E := by
  have hflatten : ∀ c ∈ (chunks batchSize candidates).flatten, c.Keeps P E Gives := by
    rwa [flatten_chunks]
  have hends : Ends (writeEntries settings sink candidates).run s
      (Handled settings P Gives (chunks batchSize candidates).flatten Tally.zero held) E :=
    ends_writeBatches h hflatten hs
  rwa [flatten_chunks] at hends

end Dump

/-! ## The file -/

section
variable {file : Sink m} {F : Bytes → σ → Prop} {may : Prop} {c : Candidate m}

/-- What holds of a run that was given up; `may` says whether any can be. -/
def GivenUp (may : Prop) (F : Bytes → σ → Prop) (s : σ) : Prop := may ∧ ∃ held, F held s

theorem Candidate.Keeps.lift {τ : Type} {P : Bytes → (τ × own) × σ → Prop}
    (h : ∀ t, c.Keeps (fun held s => P held ((t, s.1), s.2)) E Gives) :
    (c.lift : Candidate (StateT τ m)).Keeps P E Gives :=
  fun held s hs => ends_stateT_lift.mpr (h s.1.1 held (s.1.2, s.2) hs)

namespace Dump

open Buffer (Behind)
open Digest (Along)

/-- Also a candidate that ends the run leaves the file with some of what was written. -/
theorem keeps_releasing (hfile : file.Follows fun held s => F held s.2)
    (hc : c.Keeps (fun held s => F held s.2) (GivenUp may F) Gives) :
    (releasing file c).Keeps (Behind fun held s => F held s.2) (GivenUp may F) Gives := by
  intro held s hs
  obtain ⟨front, hfront, hheld⟩ := hs
  refine Ends.tryCatch (ends_stateT_lift.mpr ((hc front _ hfront).mono fun r s' hr => ?_))
    fun abort s' habort => ?_
  · exact ⟨⟨front, hr.1, hheld⟩, hr.2⟩
  · obtain ⟨hmay, front', hfront'⟩ := habort
    have hbehind : Behind (fun held s => F held s.2) _ (s.1, s') := ⟨front', hfront', rfl⟩
    dsimp only
    split
    · exact ends_throw.mpr ⟨hmay, front', hfront'⟩
    · refine ends_bind.mpr (ends_discard.mpr ?_)
      refine (Buffer.ends_drain hfile hbehind).of_false fun r s'' hr => ?_
      obtain ⟨⟨front'', hfront'', -⟩, -⟩ := hr
      exact ends_throw.mpr ⟨hmay, front'', hfront''⟩

theorem keeps_lift_releasing (hfile : file.Follows fun held s => F held s.2)
    (hc : c.Keeps (fun held s => F held s.2) (GivenUp may F) Gives) :
    ((releasing file c).lift : Candidate (StateT Digest (StateT Buffer m))).Keeps
      (Along (Behind fun held s => F held s.2)) (GivenUp may F) Gives :=
  Candidate.Keeps.lift fun _ held s hs =>
    (keeps_releasing hfile hc held s hs.1).mono fun _ _ hr => ⟨⟨hr.1, hs.2⟩, hr.2⟩

/-- What holds once the report is written: its digest is that of what is in the file. If the run
fails, only part of it is. -/
def Filled (settings : Settings) (F : Bytes → σ → Prop)
    (Gives : String → Except Failure Bytes → Prop) (candidates : List (Candidate m))
    (r : Except Failure (Tally × String)) (s : σ) : Prop :=
  match r with
  | .ok (tally, digest) =>
    ∃ pending report, List.Forall₂ (Gave Gives) candidates pending ∧
      (pending.map Pending.parse).foldlM (Tally.step settings.policy) Tally.zero = .ok tally ∧
      report = Utf8.encode (Symbol.render (kept (pending.map Pending.parse)) settings.format) ∧
      digest = Sha256.hexHash report ∧ F report s
  | .error _ => ∃ held, F held s

theorem ends_fill (hfile : file.Follows fun held s => F held s.2)
    (hcandidates : ∀ c ∈ candidates,
      c.Keeps (fun held s => F held s.2) (GivenUp may F) Gives)
    (t : own) {s : σ} (hs : F [] s) :
    Ends (fill settings file candidates).run ((.empty, .empty, t), s) (fun r s' =>
      Filled settings F Gives candidates r s'.2 ∧
        match r with
        | .ok _ => s'.1.2.1.pending.size = 0
        | .error _ => ∃ held, Behind (fun held s => F held s.2) held (s'.1.2, s'.2))
      (GivenUp may F) := by
  have hsink := hfile.buffered.digesting
  have hlifted : ∀ c ∈ candidates.map fun c => (releasing file c).lift,
      c.Keeps (Along (Behind fun held s => F held s.2)) (GivenUp may F) Gives := by
    intro c hc
    obtain ⟨c', hc', rfl⟩ := List.mem_map.mp hc
    exact keeps_lift_releasing hfile (hcandidates c' hc')
  have hstart : Along (Behind fun held s => F held s.2) [] ((Digest.empty, Buffer.empty, t), s) :=
    ⟨⟨[], hs, rfl⟩, rfl⟩
  refine ends_run_bind.mpr ((ends_writeEntries hsink hlifted hstart).mono fun r s' hr => ?_)
  cases r with
  | error failure =>
    obtain ⟨held, ⟨front, hfront, hheld⟩, -⟩ := hr
    exact ⟨⟨front, hfront⟩, held, front, hfront, hheld⟩
  | ok tally =>
    obtain ⟨pending, hpending, hfold, hbehind, htaken⟩ := hr
    have hnames : List.Forall₂ (fun c => Gave Gives ((releasing file c).lift :
        Candidate (StateT Digest (StateT Buffer m)))) candidates pending :=
      List.forall₂_map_left_iff.mp hpending
    refine ends_run_bind.mpr (ends_run_adapt.mpr (ends_sink_lift.mpr ?_))
    refine (Buffer.ends_flush_buffered hfile hbehind).of_false fun r s'' hr => ?_
    cases r with
    | error fault =>
      obtain ⟨front, hfront, hheld⟩ := hr.1
      exact ⟨⟨front, hfront⟩, _, front, hfront, hheld⟩
    | ok _ =>
      refine ends_run_bind.mpr (ends_run_getThe.mpr (ends_run_pure.mpr ⟨?_, hr.2 rfl⟩))
      refine ⟨pending, _, hnames, hfold, rfl, ?_, hr.1.passed (hr.2 rfl)⟩
      exact congrArg Sha256.hexHash htaken

theorem ends_fillFile (hfile : file.Follows fun held s => F held s.2)
    (hcandidates : ∀ c ∈ candidates,
      c.Keeps (fun held s => F held s.2) (GivenUp may F) Gives)
    {s : own × σ} (hs : F [] s.2) :
    Ends (fillFile settings file candidates) s
      (fun r s' => Filled settings F Gives candidates r s'.2) (GivenUp may F) := by
  refine ends_bind.mpr (ends_run.mpr (ends_run.mpr ?_))
  refine (ends_fill hfile hcandidates s.1 hs).mono fun r s' hr => ?_
  obtain ⟨hfilled, hrest⟩ := hr
  refine ends_bind.mpr (ends_discard.mpr (ends_run.mpr ?_))
  cases r with
  | error failure =>
    obtain ⟨held, hbehind⟩ := hrest
    refine (Buffer.ends_drain hfile hbehind).of_false fun r s'' hr => ?_
    obtain ⟨⟨front, hfront, -⟩, -⟩ := hr
    exact ends_pure.mpr ⟨front, hfront⟩
  | ok report => exact Buffer.ends_drain_of_size_eq_zero hrest (ends_pure.mpr hfilled)

end Dump

end

end JvmSymbols
