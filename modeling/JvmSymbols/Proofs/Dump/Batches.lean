import JvmSymbols.Proofs.Dump.Outline
import JvmSymbols.Source.Memory

/-!
# Reading ahead makes no difference

The batched loop and the plain one handle the same results in the same order. What candidates give
must not depend on when they are read (`Candidate.Yields`); the state of their source may change with
each read.
-/

namespace JvmSymbols

open Dump (Failure)

variable {m : Type → Type} [Monad m] {σ : Type}

/-- Reading the candidate gives `content` in every state of its source, and changes no more than
that state. -/
def Candidate.Yields (c : Candidate (StateT σ m)) (content : Except Failure Bytes) : Prop :=
  ∀ s, ∃ s', c.read.run.run s = pure (content, s')

/-- The trace of what was read is such a state. -/
theorem Candidate.yields_traced [LawfulMonad m] (name : String) (content : Except Failure Bytes) :
    (traced ⟨name, ExceptT.mk (pure content)⟩ : Candidate (StateT Trace m)).Yields content := by
  intro s
  refine ⟨⟨s.names ++ [name]⟩, ?_⟩
  have hread : (traced ⟨name, ExceptT.mk (pure content)⟩ : Candidate (StateT Trace m)).read =
      (ExceptT.lift (modify fun trace => ⟨trace.names ++ [name]⟩) >>= fun _ =>
        ExceptT.mk (pure content) : ExceptT Failure (StateT Trace m) Bytes) := rfl
  rw [hread, ExceptT.run_bind_lift, StateT.run_bind, StateT.run_modify, pure_bind]
  rfl

namespace Dump

/-- What a candidate comes to if its content is that of its name. -/
def parsed (content : String → Except Failure Bytes) (c : Candidate m) : Parsed :=
  Pending.parse (c.name, content c.name)

/-! ## Batches -/

theorem mem_of_mem_chunks {α : Type} {list chunk : List α} {a : α}
    (hchunk : chunk ∈ chunks batchSize list) (ha : a ∈ chunk) : a ∈ list := by
  rw [← flatten_chunks list]
  exact List.mem_flatten_of_mem hchunk ha

theorem foldlM_chunks [LawfulMonad m] {α β : Type} (f : β → α → m β) (b : β)
    (chunks : List (List α)) :
    chunks.foldlM (fun b chunk => chunk.foldlM f b) b = chunks.flatten.foldlM f b := by
  induction chunks generalizing b with
  | nil => rfl
  | cons chunk chunks ih => simp [ih]

/-! ## Runs beside the state of a source -/

/-- From every state of the source, `x` does what `y` does. -/
def Hides {ε α : Type} (x : ExceptT ε (StateT σ m) α) (y : ExceptT ε m α) : Prop :=
  ∀ s, ∃ s', x.run.run s = (fun r => (r, s')) <$> y.run

variable [LawfulMonad m]

/-- Steps that hide the state of the source make up a loop that does. The state at its end depends
on the course of the run, so only the rest is compared. -/
theorem run'_foldlM_of_hides {ε ι β : Type} {f : β → ι → ExceptT ε (StateT σ m) β}
    {g : β → ι → ExceptT ε m β} {list : List ι} (h : ∀ i ∈ list, ∀ b, Hides (f b i) (g b i)) (b : β)
    (s : σ) : (list.foldlM f b).run.run' s = (list.foldlM g b).run := by
  induction list generalizing b s with
  | nil => simp
  | cons i list ih =>
    obtain ⟨hi, hlist⟩ := List.forall_mem_cons.mp h
    obtain ⟨s', hs'⟩ := hi b s
    simp only [StateT.run'_eq] at ih ⊢
    simp only [List.foldlM_cons, ExceptT.run_bind, StateT.run_bind, hs', bind_map_left, map_bind]
    refine bind_congr fun r => ?_
    cases r with
    | ok b' => exact ih hlist b' s'
    | error e => simp

variable (settings : Settings) (sink : Sink m)

theorem handle_beside (tally : Tally) (result : Parsed) :
    handle settings (sink.beside : Sink (StateT σ m)) tally result =
      Sink.lift (handle settings sink tally result) := by
  cases result with
  | ok symbols =>
    simp only [handle, Sink.lift_bind, Sink.lift_adapt, Sink.lift_pure, writeSymbols,
      Sink.writeParts_beside]
  | error failure =>
    ext s
    simp [handle, Sink.run_lift]

theorem foldlM_handle_beside (tally : Tally) (results : List Parsed) :
    results.foldlM (handle settings (sink.beside : Sink (StateT σ m))) tally =
      Sink.lift (results.foldlM (handle settings sink) tally) := by
  induction results generalizing tally with
  | nil => exact (Sink.lift_pure tally).symm
  | cons result results ih =>
    rw [List.foldlM_cons, List.foldlM_cons, Sink.lift_bind, handle_beside]
    congr 1
    funext tally'
    exact ih tally'

/-- Whether reading goes on behind a candidate that gave `r`. -/
def readsOn (policy : Policy) (r : Except Failure Bytes) : Prop :=
  policy = .failFast → ∃ bytes, r = .ok bytes

theorem run_readAhead_cons {policy : Policy} {c : Candidate (StateT σ m)}
    {candidates : List (Candidate (StateT σ m))} {r : Except Failure Bytes} {s s' : σ}
    (hread : c.read.run.run s = pure (r, s')) (hon : readsOn policy r) :
    (readAhead policy (c :: candidates)).run s =
      (fun p => ((c.name, r) :: p.1, p.2)) <$> (readAhead policy candidates).run s' := by
  rw [readAhead, StateT.run_bind, hread, pure_bind]
  cases r with
  | ok bytes => simp
  | error failure =>
    cases policy with
    | failFast => exact nomatch hon rfl
    | skipAndContinue => simp

theorem run_readAhead_failure {c : Candidate (StateT σ m)}
    {candidates : List (Candidate (StateT σ m))} {failure : Failure} {s s' : σ}
    (hread : c.read.run.run s = pure (.error failure, s')) :
    (readAhead .failFast (c :: candidates)).run s = pure ([(c.name, .error failure)], s') := by
  rw [readAhead, StateT.run_bind, hread, pure_bind]
  rfl

/-- What is read ahead comes to the same as all candidates do: the candidates that are left unread
stand behind a failure that ends the run. -/
theorem exists_readAhead {content : String → Except Failure Bytes}
    {candidates : List (Candidate (StateT σ m))}
    (h : ∀ c ∈ candidates, c.Yields (content c.name)) (s : σ) :
    ∃ pending s', (readAhead settings.policy candidates).run s = pure (pending, s') ∧
      ∀ tally, (pending.map Pending.parse).foldlM (handle settings sink) tally =
        (candidates.map (parsed content)).foldlM (handle settings sink) tally := by
  induction candidates generalizing s with
  | nil => exact ⟨[], s, rfl, fun _ => rfl⟩
  | cons c candidates ih =>
    obtain ⟨hc, hcandidates⟩ := List.forall_mem_cons.mp h
    obtain ⟨s₁, hs₁⟩ := hc s
    by_cases hon : readsOn settings.policy (content c.name)
    · obtain ⟨pending, s₂, hs₂, hpending⟩ := ih hcandidates s₁
      refine ⟨(c.name, content c.name) :: pending, s₂, ?_, fun tally => ?_⟩
      · rw [run_readAhead_cons hs₁ hon, hs₂, map_pure]
      · rw [List.map_cons, List.map_cons, List.foldlM_cons, List.foldlM_cons]
        congr 1
        funext tally'
        exact hpending tally'
    · obtain ⟨hpolicy, hcontent⟩ :
        settings.policy = .failFast ∧ ¬∃ bytes, content c.name = .ok bytes := by
        simpa [readsOn] using hon
      rcases hfailure : content c.name with failure | bytes
      · have hthrow (tally : Tally) :
          handle settings sink tally (parsed content c) = throw failure := by
          simp only [parsed, hfailure, handle, Pending.parse, Except.bind, hpolicy, Tally.fail]
          rfl
        have hparse : Pending.parse (c.name, .error failure) = parsed content c := by
          rw [parsed, hfailure]
        rw [hfailure] at hs₁
        refine ⟨[(c.name, .error failure)], s₁, hpolicy ▸ run_readAhead_failure hs₁, fun tally => ?_⟩
        rw [List.map_cons, List.map_cons, List.foldlM_cons, List.foldlM_cons, hparse, hthrow,
          ExceptT.bind_throw, ExceptT.bind_throw]
      · exact absurd ⟨bytes, hfailure⟩ hcontent

theorem hides_writeBatch {content : String → Except Failure Bytes}
    {candidates : List (Candidate (StateT σ m))}
    (h : ∀ c ∈ candidates, c.Yields (content c.name)) (tally : Tally) :
    Hides (writeBatch settings sink.beside tally candidates)
      ((candidates.map (parsed content)).foldlM (handle settings sink) tally) := by
  intro s
  obtain ⟨pending, s', hread, hpending⟩ := exists_readAhead settings sink h s
  refine ⟨s', ?_⟩
  rw [writeBatch, ExceptT.run_bind_lift, StateT.run_bind, hread, pure_bind, foldlM_handle_beside,
    Sink.run_lift, hpending]

theorem hides_writeOne {content : String → Except Failure Bytes} {c : Candidate (StateT σ m)}
    (h : c.Yields (content c.name)) (tally : Tally) :
    Hides (writeOne settings sink.beside tally c)
      (handle settings sink tally (parsed content c)) := by
  intro s
  obtain ⟨s', hread⟩ := h s
  refine ⟨s', ?_⟩
  rw [writeOne, ExceptT.run_bind_lift, StateT.run_bind, hread, pure_bind, handle_beside,
    Sink.run_lift]
  rfl

section
variable {content : String → Except Failure Bytes} {candidates : List (Candidate (StateT σ m))}
  (h : ∀ c ∈ candidates, c.Yields (content c.name)) (s : σ)
include h

theorem run'_writeEntries :
    (writeEntries settings sink.beside candidates).run.run' s =
      ((candidates.map (parsed content)).foldlM (handle settings sink) Tally.zero).run := by
  have hbatch (chunk : List (Candidate (StateT σ m))) (hchunk : chunk ∈ chunks batchSize candidates)
      (tally : Tally) : Hides (writeBatch settings sink.beside tally chunk)
        ((chunk.map (parsed content)).foldlM (handle settings sink) tally) :=
    hides_writeBatch settings sink (fun c hc => h c (mem_of_mem_chunks hchunk hc)) tally
  rw [writeEntries, run'_foldlM_of_hides hbatch]
  simp only [List.foldlM_map]
  rw [foldlM_chunks, flatten_chunks]

theorem run'_writeOneByOne :
    (writeOneByOne settings sink.beside candidates).run.run' s =
      ((candidates.map (parsed content)).foldlM (handle settings sink) Tally.zero).run := by
  rw [writeOneByOne, run'_foldlM_of_hides fun c hc => hides_writeOne settings sink (h c hc),
    List.foldlM_map]

end

/-- Reading in batches has the effects on the report and the result of reading one by one. If the
first failure is to end the run, that is the first one in the order of the candidates, whatever was
read ahead behind it. -/
theorem writeEntries_eq_writeOneByOne {content : String → Except Failure Bytes}
    {candidates : List (Candidate (StateT σ m))}
    (h : ∀ c ∈ candidates, c.Yields (content c.name)) (s : σ) :
    (writeEntries settings sink.beside candidates).run.run' s =
        (writeOneByOne settings sink.beside candidates).run.run' s ∧
      ∀ front c back (lines : List (List Symbol)) failure, settings.policy = .failFast →
        candidates = front ++ c :: back → front.map (parsed content) = lines.map .ok →
        parsed content c = .error failure →
        (writeEntries settings sink.beside candidates).run.run' s =
          (writeLines settings sink lines.flatten >>= fun _ => throw failure).run := by
  refine ⟨(run'_writeEntries settings sink h s).trans (run'_writeOneByOne settings sink h s).symm, ?_⟩
  intro front c back lines failure hpolicy hcandidates hfront hc
  rw [run'_writeEntries settings sink h s, hcandidates, List.map_append, List.map_cons, hfront, hc,
    foldlM_handle, hpolicy, written_failFast, foldlM_step_failFast]
  rfl

/-- Takes what it is offered if there is room for it beside what it holds. -/
def limitedSink (room : Nat) : Sink (StateM Bytes) where
  write bytes := do
    let held ← getThe Bytes
    if room < held.length + bytes.length then throw .noSpace
    set (held ++ bytes)
    return bytes.length
  flush := pure ()

/-- A file that is no class file, and one behind it that cannot be read. -/
def brokenSource : MemorySource :=
  ⟨[⟨"bad", .ok []⟩, ⟨"gone", .error (.unreadable "gone" (.other "lost"))⟩], none⟩

theorem writeEntries_brokenSource :
    let candidates := (brokenSource.candidates ["bad", "gone"]).map
      (Candidate.traced : _ → Candidate (StateT Trace (StateM Bytes)))
    let settings : Settings := ⟨⟨[]⟩, ⟨[]⟩, .all, .text, .failFast, true⟩
    (∀ c ∈ candidates, c.Yields (brokenSource.content c.name)) ∧
      (writeEntries settings (limitedSink 3).beside candidates).run.run' ⟨[]⟩ =
        (writeOneByOne settings (limitedSink 3).beside candidates).run.run' ⟨[]⟩ ∧
      (writeEntries settings (limitedSink 3).beside candidates).run.run' ⟨[]⟩ =
        pure (.error (.malformed "bad" (.truncated ⟨0, 4, 0⟩))) := by
  intro candidates settings
  have h : ∀ c ∈ candidates, c.Yields (brokenSource.content c.name) := by
    intro c hc
    obtain ⟨c', hc', rfl⟩ := List.mem_map.mp hc
    obtain ⟨name, -, rfl⟩ := List.mem_map.mp hc'
    exact Candidate.yields_traced name _
  obtain ⟨heq, hfirst⟩ := writeEntries_eq_writeOneByOne settings (limitedSink 3) h ⟨[]⟩
  exact ⟨h, heq, hfirst [] _ _ [] _ rfl rfl rfl rfl⟩

end Dump

end JvmSymbols
