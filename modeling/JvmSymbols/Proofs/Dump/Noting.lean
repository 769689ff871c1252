import JvmSymbols.Proofs.Dump.Policies

/-!
# Dumps that note what they read

A dump forgets what came of reading a candidate once the candidate is handled. The same dump with
notes gives that as well; without the notes it is the dump itself (`fst_map_noteDump`).
-/

namespace JvmSymbols

open Archive (Abort)

namespace Dump

variable {m : Type → Type} [Monad m] {α β : Type}

/-! ## Reports on lines from anywhere -/

/-- The writing of lines into a buffer before a file. -/
abbrev Lines (m : Type → Type) (α : Type) :=
  Sink m → ExceptT Failure (StateT Digest (StateT Buffer m)) α

def fillBy (settings : Settings) (file : Sink m) (lines : Lines m α) :
    ExceptT Failure (StateT Digest (StateT Buffer m)) (α × String) := do
  let a ← lines file
  file.buffered.digesting.flush.adapt (Failure.unwritable (temporary settings.output))
  return (a, (← getThe Digest).hex)

def fillFileBy (settings : Settings) (file : Sink m) (lines : Lines m α) :
    m (Except Failure (α × String)) := do
  let ((result, _), buffer) ← ((fillBy settings file lines).run.run Digest.empty).run Buffer.empty
  discard <| (Buffer.drain file).run.run buffer
  return result

/-- Makes a report and gives what the writing of the lines gave, with the digest. -/
def reportBy [FileSystem m] (settings : Settings) (lines : Lines m α) :
    ExceptT Failure m (α × String) := do
  makeParent settings.output
  let tmp := temporary settings.output
  let file ← (FileSystem.create tmp).adapt (Failure.unwritable tmp)
  match ← ExceptT.lift (fillFileBy settings file lines) with
  | .error failure =>
    let _ ← ExceptT.lift (FileSystem.remove tmp : ExceptT FileSystem.Fault m Unit).run
    throw failure
  | .ok result =>
    (FileSystem.rename tmp settings.output).adapt (Failure.unwritable settings.output)
    return result

section
variable [LawfulMonad m] (f : α → β) (settings : Settings) (lines : Lines m α)

theorem fillBy_map (file : Sink m) :
    fillBy settings file (fun file => f <$> lines file) =
      Prod.map f id <$> fillBy settings file lines := by
  simp only [fillBy, map_bind, bind_map_left, map_pure, Prod.map_apply, id]

theorem fillFileBy_map (file : Sink m) :
    fillFileBy settings file (fun file => f <$> lines file) =
      Except.map (Prod.map f id) <$> fillFileBy settings file lines := by
  simp only [fillFileBy, fillBy_map, ExceptT.run_map, StateT.run_map, map_bind, bind_map_left,
    map_pure]

theorem map_throw (failure : Failure) :
    f <$> (throw failure : ExceptT Failure m α) = throw failure := by
  ext
  simp

/-- What is made of the lines can be told apart from how they are written. -/
theorem reportBy_map [FileSystem m] :
    reportBy settings (fun file => f <$> lines file) =
      Prod.map f id <$> reportBy settings lines := by
  have hlift (x : m (Except Failure (α × String))) :
      (ExceptT.lift (Except.map (Prod.map f id) <$> x) : ExceptT Failure m _) =
        Except.map (Prod.map f id) <$> ExceptT.lift x := by
    ext
    rw [ExceptT.run_lift, ExceptT.run_map, ExceptT.run_lift, Functor.map_map, Functor.map_map]
    rfl
  simp only [reportBy, map_bind, fillFileBy_map, hlift, bind_map_left]
  refine congrArg _ (funext fun _ => congrArg _ (funext fun file => congrArg _ (funext fun r =>
    ?_)))
  cases r with
  | error failure => simp only [Except.map, map_bind, map_throw]
  | ok result => simp only [Except.map, map_bind, map_pure]

variable [MonadExceptOf Abort m]

/-- The lines of candidates. -/
def linesOf (settings : Settings) (candidates : List (Candidate m)) : Lines m Tally := fun file =>
  writeEntries settings file.buffered.digesting (beside file candidates)

theorem makeReport_eq [FileSystem m] (candidates : List (Candidate m)) :
    makeReport settings candidates =
      (fun (tally, digest) => settings.summary candidates.length tally digest) <$>
        reportBy settings (linesOf settings candidates) := by
  have hfill (file : Sink m) : fillFile settings file candidates =
      fillFileBy settings file (linesOf settings candidates) := rfl
  simp only [makeReport, reportBy, map_bind, hfill]
  refine congrArg _ (funext fun _ => congrArg _ (funext fun file => congrArg _ (funext fun r =>
    ?_)))
  cases r with
  | error failure => simp only [map_bind, map_throw]
  | ok result => simp only [map_bind, map_pure]

end

/-! ## Notes -/

/-- Writes a batch and gives, beside the tally, all results that were read so far. -/
def noteBatch (settings : Settings) (sink : Sink m) (noted : Tally × List Pending)
    (candidates : List (Candidate m)) : ExceptT Failure m (Tally × List Pending) := do
  let pending ← ExceptT.lift (readAhead settings.policy candidates)
  let tally ← (pending.map Pending.parse).foldlM (handle settings sink) noted.1
  return (tally, noted.2 ++ pending)

def noteEntries (settings : Settings) (sink : Sink m) (candidates : List (Candidate m)) :
    ExceptT Failure m (Tally × List Pending) :=
  (chunks batchSize candidates).foldlM (noteBatch settings sink) (Tally.zero, [])

theorem fst_map_foldlM [LawfulMonad m] {γ : Type} {f : β × γ → α → m (β × γ)} {g : β → α → m β}
    (h : ∀ p a, Prod.fst <$> f p a = g p.1 a) (list : List α) (p : β × γ) :
    Prod.fst <$> list.foldlM f p = list.foldlM g p.1 := by
  induction list generalizing p with
  | nil => simp
  | cons a list ih =>
    rw [List.foldlM_cons, List.foldlM_cons, map_bind, ← h, bind_map_left]
    simp only [ih]

theorem fst_map_noteEntries [LawfulMonad m] (settings : Settings) (sink : Sink m)
    (candidates : List (Candidate m)) :
    Prod.fst <$> noteEntries settings sink candidates = writeEntries settings sink candidates := by
  refine fst_map_foldlM (fun noted candidates => ?_) _ (Tally.zero, [])
  simp only [noteBatch, writeBatch, map_bind, map_pure, bind_pure]

section
variable [MonadExceptOf Abort m] [FileSystem m]

/-- Makes the report and gives the results that went into it. -/
def noteReport (settings : Settings) (candidates : List (Candidate m)) :
    ExceptT Failure m (Summary × List Pending) :=
  (fun ((tally, results), digest) =>
      (settings.summary candidates.length tally digest, results)) <$>
    reportBy settings fun file =>
      noteEntries settings file.buffered.digesting (beside file candidates)

/-- What a dump lists and what comes of reading it. -/
structure Notes where
  root : RootKind
  /-- The names of the candidates as they are listed. -/
  listed : List String
  results : List Pending
  deriving DecidableEq, Repr

/-- Finds out what the root is and lists its candidates. -/
def noteRoot (settings : Settings) : ExceptT Failure m (RootKind × List (Candidate m)) := do
  match ← detectRoot settings.root with
  | .directory =>
    let (keys, source) ← ExceptT.lift ((DirectorySource.ofRoot settings.root).list settings.filter)
    return (.directory, source.candidates (← ExceptT.mk (pure keys)))
  | .archive =>
    let bytes ← (FileSystem.map settings.root).adapt (unreadableFile settings.root)
    let source ← ExceptT.mk (pure (ArchiveSource.open? settings.root bytes))
    let (keys, source) := source.list settings.filter
    return (.archive, source.candidates keys)

/-- Dumps a root and notes what was listed and read. -/
def noteDump (settings : Settings) : ExceptT Failure m (Summary × Notes) := do
  let start ← ExceptT.lift (FileSystem.milliseconds : m Nat)
  let (root, candidates) ← noteRoot settings
  let (summary, results) ← noteReport settings candidates
  let stop ← ExceptT.lift (FileSystem.milliseconds : m Nat)
  return ({ summary with durationMs := stop - start },
    ⟨root, candidates.map Candidate.name, results⟩)

variable [LawfulMonad m]

theorem fst_map_noteReport (settings : Settings) (candidates : List (Candidate m)) :
    Prod.fst <$> noteReport settings candidates = makeReport settings candidates := by
  have hlines : linesOf settings candidates = fun file => Prod.fst <$>
      noteEntries settings file.buffered.digesting (beside file candidates) :=
    funext fun file => (fst_map_noteEntries settings _ _).symm
  rw [makeReport_eq, hlines, reportBy_map, noteReport, Functor.map_map, Functor.map_map]
  rfl

theorem snd_map_noteRoot (settings : Settings) :
    Prod.snd <$> noteRoot (m := m) settings = listRoot settings := by
  simp only [noteRoot, listRoot, map_bind]
  refine congrArg _ (funext fun kind => ?_)
  cases kind <;> simp only [map_bind, map_pure]

/-- A dump is the dump with notes, without the notes. -/
theorem fst_map_noteDump (settings : Settings) :
    Prod.fst <$> noteDump (m := m) settings = dump settings := by
  simp only [dump_eq, noteDump, dumpSource, ← snd_map_noteRoot, ← fst_map_noteReport, map_bind,
    bind_map_left, bind_assoc, map_pure]

end

/-! ## What is noted -/

section
variable [LawfulMonad m] [MonadExceptOf Abort m] {own σ : Type} [RunsOver own σ m]
  {Gives : String → Except Failure Bytes → Prop} {candidates : List (Candidate m)}
  {settings : Settings}

/-- Whenever the candidate is read, what comes of it is something that `Gives` allows. -/
def Answers (Gives : String → Except Failure Bytes → Prop) (c : Candidate m) : Prop :=
  ∀ s : own × σ, Ends c.read.run s (fun r _ => Gives c.name r) fun _ => True

omit [LawfulMonad m] in
theorem Answers.keeps {c : Candidate m} (h : Answers Gives c) :
    c.Keeps (fun held (_ : own × σ) => held = []) (fun _ => True) Gives :=
  fun _ s hheld => (h s).mono fun _ _ hr => ⟨hheld, hr⟩

theorem answers_beside (h : ∀ c ∈ candidates, Answers Gives c) (file : Sink m) :
    ∀ c ∈ beside file candidates, Answers Gives c := by
  intro c hc s
  obtain ⟨c, hmem, rfl⟩ := List.mem_map.mp hc
  refine ends_stateT_lift.mpr (Ends.tryCatch (ends_stateT_lift.mpr (h c hmem (s.1.2.2, s.2)))
    fun abort s' _ => ?_)
  dsimp only
  split
  · exact ends_throw.mpr trivial
  · exact ends_bind.mpr ((ends_anyhow _ (s.1.2, s')).mono fun _ _ _ => ends_throw.mpr trivial)

/-- The results are those of the candidates, and the tally is theirs. -/
def Counted (settings : Settings) (Gives : String → Except Failure Bytes → Prop)
    (candidates : List (Candidate m)) (before : Tally) (results : List Pending)
    (tally : Tally) : Prop :=
  List.Forall₂ (Gave Gives) candidates results ∧
    (results.map Pending.parse).foldlM (Tally.step settings.policy) before = .ok tally

theorem ends_noteBatch {sink : Sink m} {noted : Tally × List Pending}
    (h : ∀ c ∈ candidates, Answers Gives c) (s : own × σ) :
    Ends (noteBatch settings sink noted candidates).run s (fun r _ => ∀ tally results,
      r = .ok (tally, results) → ∃ pending, results = noted.2 ++ pending ∧
        Counted settings Gives candidates noted.1 pending tally) fun _ => True := by
  refine ends_run_bind.mpr (ends_run_lift.mpr ?_)
  refine (ends_readAhead settings.policy (fun c hc => (h c hc).keeps) rfl).mono ?_
  intro pending s' hr
  obtain ⟨-, hread⟩ := hr
  dsimp only
  rw [foldlM_handle, bind_assoc]
  refine ends_run_bind.mpr ((ends_anyhow _ s').mono fun r s'' _ => ?_)
  cases r with
  | error failure => exact nofun
  | ok _ =>
    refine ends_run_bind.mpr (ends_pure.mpr ?_)
    rcases hfold : (pending.map Pending.parse).foldlM (Tally.step settings.policy) noted.1
      with _ | tally
    · exact nofun
    · refine ends_run_pure.mpr fun tally' results hresults => ?_
      cases hresults
      -- reading ahead stops early at a failure only, and counting that failure gives no tally
      rcases hread with hread | ⟨hpolicy, front, name, failure, rfl⟩
      · exact ⟨pending, rfl, hread, hfold⟩
      · rw [hpolicy, List.map_append] at hfold
        exact absurd hfold (foldlM_step_ne_ok _ failure _ _)

theorem ends_noteBatches {sink : Sink m} {chunks : List (List (Candidate m))}
    (h : ∀ c ∈ chunks.flatten, Answers Gives c) (noted : Tally × List Pending) (s : own × σ) :
    Ends (chunks.foldlM (noteBatch settings sink) noted).run s (fun r _ => ∀ tally results,
      r = .ok (tally, results) → ∃ pending, results = noted.2 ++ pending ∧
        Counted settings Gives chunks.flatten noted.1 pending tally) fun _ => True := by
  induction chunks generalizing noted s with
  | nil =>
    refine ends_run_pure.mpr fun tally results hresults => ?_
    cases hresults
    exact ⟨[], (List.append_nil _).symm, .nil, rfl⟩
  | cons chunk chunks ih =>
    rw [List.flatten_cons] at h ⊢
    obtain ⟨hchunk, hrest⟩ := List.forall_mem_append.mp h
    rw [List.foldlM_cons]
    refine ends_run_bind.mpr ((ends_noteBatch hchunk s).mono fun r s' hr => ?_)
    rcases r with failure | ⟨tally, results⟩
    · exact nofun
    · obtain ⟨pending, rfl, hpending, hfold⟩ := hr tally results rfl
      refine (ih hrest _ s').mono fun r s'' hr tally' results' hresults => ?_
      obtain ⟨pending', rfl, hpending', hfold'⟩ := hr tally' results' hresults
      refine ⟨pending ++ pending', List.append_assoc _ _ _, List.rel_append hpending hpending', ?_⟩
      rw [List.map_append, List.foldlM_append, hfold]
      exact hfold'

theorem ends_noteEntries {sink : Sink m} (h : ∀ c ∈ candidates, Answers Gives c) (s : own × σ) :
    Ends (noteEntries settings sink candidates).run s (fun r _ => ∀ tally results,
      r = .ok (tally, results) → Counted settings Gives candidates Tally.zero results tally)
      fun _ => True := by
  have hflatten : ∀ c ∈ (chunks batchSize candidates).flatten, Answers Gives c := by
    rwa [flatten_chunks]
  refine (ends_noteBatches hflatten (Tally.zero, []) s).mono fun r _ hr tally results hresults => ?_
  obtain ⟨pending, rfl, hcounted⟩ := hr tally results hresults
  rwa [flatten_chunks] at hcounted

/-- What is known of the writing of the lines is known of the report. -/
theorem ends_reportBy [FileSystem m] {lines : Lines m α} {Q : α → Prop}
    (h : ∀ file (p : (Digest × Buffer × own) × σ), Ends (lines file).run p
      (fun r _ => ∀ a, r = .ok a → Q a) fun _ => True) (s : own × σ) :
    Ends (reportBy settings lines).run s (fun r _ => ∀ a digest, r = .ok (a, digest) → Q a)
      fun _ => True := by
  have hfill (file : Sink m) (p : (Digest × Buffer × own) × σ) :
      Ends (fillBy settings file lines).run p
        (fun r _ => ∀ a digest, r = .ok (a, digest) → Q a) fun _ => True := by
    refine ends_run_bind.mpr ((h file p).mono fun r p' hr => ?_)
    cases r with
    | error failure => exact nofun
    | ok a =>
      refine ends_run_bind.mpr ((ends_anyhow _ p').mono fun r p'' _ => ?_)
      cases r with
      | error failure => exact nofun
      | ok _ =>
        refine ends_run_bind.mpr (ends_run_getThe.mpr (ends_run_pure.mpr fun a' digest ha => ?_))
        cases ha
        exact hr a rfl
  have hfile (file : Sink m) (s : own × σ) : Ends (fillFileBy settings file lines) s
      (fun r _ => ∀ a digest, r = .ok (a, digest) → Q a) fun _ => True := by
    refine ends_bind.mpr (ends_run.mpr (ends_run.mpr ?_))
    refine (hfill file _).mono fun r p hr => ?_
    exact ends_bind.mpr ((ends_anyhow _ _).mono fun _ _ _ => ends_pure.mpr hr)
  refine ends_run_bind.mpr ((ends_anyhow _ s).mono fun r s₁ _ => ?_)
  cases r with
  | error failure => exact nofun
  | ok _ =>
    refine ends_run_bind.mpr ((ends_anyhow _ s₁).mono fun r s₂ _ => ?_)
    cases r with
    | error failure => exact nofun
    | ok file =>
      refine ends_run_bind.mpr (ends_run_lift.mpr ((hfile file s₂).mono fun r s₃ hr => ?_))
      cases r with
      | error failure =>
        refine ends_run_bind.mpr ((ends_anyhow _ s₃).mono fun r _ _ => ?_)
        cases r with
        | error failure => exact nofun
        | ok _ => exact ends_run_throw.mpr nofun
      | ok result =>
        refine ends_run_bind.mpr ((ends_anyhow _ s₃).mono fun r _ _ => ?_)
        cases r with
        | error failure => exact nofun
        | ok _ => exact ends_run_pure.mpr fun a digest ha => hr a digest ha

/-- A report counts the results that were read for it. -/
theorem ends_noteReport [FileSystem m] (h : ∀ c ∈ candidates, Answers Gives c) (s : own × σ) :
    Ends (noteReport settings candidates).run s (fun r _ => ∀ summary results,
      r = .ok (summary, results) → ∃ tally digest,
        summary = settings.summary candidates.length tally digest ∧
        Counted settings Gives candidates Tally.zero results tally) fun _ => True := by
  have hlines (file : Sink m) (p : (Digest × Buffer × own) × σ) :
      Ends (noteEntries settings file.buffered.digesting (beside file candidates)).run p
        (fun r _ => ∀ noted : Tally × List Pending, r = .ok noted →
          Counted settings Gives candidates Tally.zero noted.2 noted.1) fun _ => True := by
    refine (ends_noteEntries (answers_beside h file) p).mono fun r _ hr noted hnoted => ?_
    obtain ⟨hgave, hfold⟩ := hr noted.1 noted.2 hnoted
    have hgave' : List.Forall₂ (fun c => Gave Gives ((releasing file c).lift :
        Candidate (StateT Digest (StateT Buffer m)))) candidates noted.2 :=
      List.forall₂_map_left_iff.mp hgave
    exact ⟨hgave', hfold⟩
  rw [noteReport, ExceptT.run_map]
  refine ends_map.mpr ((ends_reportBy hlines s).mono fun r _ hr summary results hresults => ?_)
  rcases r with failure | ⟨⟨tally, noted⟩, digest⟩
  · cases hresults
  · cases hresults
    exact ⟨tally, digest, rfl, hr _ digest rfl⟩

end

end Dump

end JvmSymbols
