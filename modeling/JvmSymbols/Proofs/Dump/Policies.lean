import JvmSymbols.Proofs.Dump.Failing
import JvmSymbols.Proofs.Dump.LeftOut
import JvmSymbols.Proofs.FileSystem.Blind

/-!
# What to do about failures

A run that ends at the first failure and one that leaves failures out write the same lines for the
candidates that do not fail (`policies_agree`). A source may keep a state that its reads change, if
the file system does not look at it (`FileSystem.BlindTo`).
-/

namespace JvmSymbols

open Archive (Abort)
open CarriesTree (tree)
open Dump (Failure)
open FileSystem (Fault)

variable {m : Type → Type} [Monad m] [MonadExceptOf Abort m] {own σ : Type}
  [RunsOver own σ m] {Same : own × σ → own × σ → Prop} {s t : own × σ}

/-- Reading the candidate gives the content of its name, and changes nothing that is looked at. -/
def Candidate.Reads (c : Candidate m) (content : String → Except Failure Bytes)
    (Same : own × σ → own × σ → Prop) : Prop :=
  ∀ s, ∃ s', EndsWith c.read.run s (content c.name) s' ∧ Same s s'

namespace Dump

/-! ## Reading -/

section
variable {content : String → Except Failure Bytes} {settings : Settings} {sink : Sink m}
  {candidates : List (Candidate m)} {tally : Tally}

theorem exists_readOut (hsame : Equivalence Same) (policy : Policy)
    (h : ∀ c ∈ candidates, c.Reads content Same) (s : own × σ) :
    ∃ pending s', EndsWith (readAhead policy candidates) s pending s' ∧ Same s s' ∧
      ReadOut policy content candidates pending := by
  induction candidates generalizing s with
  | nil => exact ⟨[], s, RunsOver.exec_pure [] s, hsame.refl s, rfl, fun _ => rfl⟩
  | cons c candidates ih =>
    obtain ⟨hc, hcandidates⟩ := List.forall_mem_cons.mp h
    obtain ⟨s₁, hread, hs₁⟩ := hc s
    obtain ⟨pending, s₂, hrest, hs₂, hpending⟩ := ih hcandidates s₁
    have hon : EndsWith (do return (c.name, content c.name) :: (← readAhead policy candidates) :
        m (List Pending)) s₁ ((c.name, content c.name) :: pending) s₂ :=
      hrest.bind (RunsOver.exec_pure _ _)
    have hall : ReadOut policy content (c :: candidates) ((c.name, content c.name) :: pending) :=
      hpending.cons
    have hs : Same s s₂ := hsame.trans hs₁ hs₂
    rcases hcontent : content c.name with failure | bytes
    · rw [hcontent] at hread
      cases policy with
      | failFast =>
        refine ⟨_, s₁, hread.bind (RunsOver.exec_pure _ _), hs₁, ?_⟩
        rw [← hcontent]
        exact readOut_of_failure hcontent
      | skipAndContinue =>
        rw [hcontent] at hon hall
        exact ⟨_, s₂, hread.bind hon, hs, hall⟩
    · rw [hcontent] at hread hon hall
      exact ⟨_, s₂, hread.bind hon, hs, hall⟩

/-! ## Writing -/

variable [LawfulMonad m]

theorem overlooks_writeLines (h : sink.Overlooks Same) (symbols : List Symbol) :
    Overlooks Same (writeLines settings sink symbols).run :=
  (h.writeParts _).adapt

theorem overlooks_foldlM_handle (h : sink.Overlooks Same) (results : List Parsed) :
    Overlooks Same (results.foldlM (handle settings sink) tally).run := by
  rw [foldlM_handle]
  exact (overlooks_writeLines h _).run_bind fun _ => overlooks_pure _

/-- Writing batch after batch comes to handling all that the candidates come to. -/
theorem twins_writeBatches (hsame : Equivalence Same) (hsink : sink.Overlooks Same)
    {chunks : List (List (Candidate m))} (h : ∀ c ∈ chunks.flatten, c.Reads content Same)
    (hs : Same s t) :
    BothEnd (chunks.foldlM (writeBatch settings sink) tally).run s
      ((chunks.flatten.map (parsed content)).foldlM (handle settings sink) tally).run t
      (Alike (Twins Eq) Same) := by
  induction chunks generalizing tally s t with
  | nil => exact .pure ⟨rfl, hs⟩
  | cons chunk chunks ih =>
    rw [List.flatten_cons] at h ⊢
    obtain ⟨hchunk, hrest⟩ := List.forall_mem_append.mp h
    rw [List.foldlM_cons, List.map_append, List.foldlM_append]
    have hbatch : BothEnd (writeBatch settings sink tally chunk).run s
        ((chunk.map (parsed content)).foldlM (handle settings sink) tally).run t
        (Alike (Twins Eq) Same) := by
      obtain ⟨pending, s', hread, hs', hpending⟩ :=
        exists_readOut hsame settings.policy hchunk s
      have hhandle : (pending.map Pending.parse).foldlM (handle settings sink) tally =
          (chunk.map (parsed content)).foldlM (handle settings sink) tally := by
        rw [foldlM_handle, foldlM_handle, hpending.written, hpending.fold]
      have hoverlooks : Overlooks Same
          ((chunk.map (parsed content)).foldlM (handle settings sink) tally).run :=
        overlooks_foldlM_handle hsink _
      obtain ⟨r, s₁, r', t₁, hleft, hright, hr⟩ :=
        hoverlooks.twins (hsame.trans (hsame.symm hs') hs)
      refine ⟨r, s₁, r', t₁, ?_, hright, hr⟩
      rw [writeBatch, ExceptT.run_bind_lift]
      refine hread.bind ?_
      rw [hhandle]
      exact hleft
    refine hbatch.run_bind fun tally' s' tally'' t' heq hs' => ?_
    cases heq
    exact ih hrest hs'

theorem twins_writeEntries (hsame : Equivalence Same) (hsink : sink.Overlooks Same)
    (h : ∀ c ∈ candidates, c.Reads content Same) (hs : Same s t) :
    BothEnd (writeEntries settings sink candidates).run s
      ((candidates.map (parsed content)).foldlM (handle settings sink) Tally.zero).run t
      (Alike (Twins Eq) Same) := by
  rw [← flatten_chunks candidates] at h
  have hbatches : BothEnd (writeEntries settings sink candidates).run s
      (((chunks batchSize candidates).flatten.map (parsed content)).foldlM (handle settings sink)
        Tally.zero).run t (Alike (Twins Eq) Same) := twins_writeBatches hsame hsink h hs
  rwa [flatten_chunks] at hbatches

end

/-! ## Two reports -/

section
variable [LawfulMonad m] {content : String → Except Failure Bytes} {settings : Settings}
  {policy policy' : Policy} {candidates candidates' : List (Candidate m)}
  {V : Tally → Tally → Prop}

/-- The candidates beside the states that a report is written with. -/
def beside (file : Sink m) (candidates : List (Candidate m)) :
    List (Candidate (StateT Digest (StateT Buffer m))) :=
  candidates.map fun c => (releasing file c).lift

theorem reads_beside (h : ∀ c ∈ candidates, c.Reads content Same) (file : Sink m) :
    ∀ c ∈ beside file candidates, c.Reads content (Lifted (Lifted Same)) := by
  intro c hc p
  obtain ⟨c', hc', rfl⟩ := List.mem_map.mp hc
  obtain ⟨s', hread, hs'⟩ := h c' hc' (p.1.2.2, p.2)
  exact ⟨_, EndsWith.stateT_lift (EndsWith.tryCatch _ (EndsWith.stateT_lift hread)), rfl, rfl, hs'⟩

omit [LawfulMonad m] in
theorem map_parsed_beside (content : String → Except Failure Bytes) (file : Sink m)
    (candidates : List (Candidate m)) :
    (beside file candidates).map (parsed content) = candidates.map (parsed content) := by
  rw [beside, List.map_map]
  rfl

/-- What is read ahead does not count: it is enough to compare how the runs handle the results. -/
theorem bothEnd_entries {sink : Sink m} (hsame : Equivalence Same) (hsink : sink.Overlooks Same)
    (h : ∀ c ∈ candidates, c.Reads content Same) (h' : ∀ c ∈ candidates', c.Reads content Same)
    {Q : Except Failure Tally → own × σ → Except Failure Tally → own × σ → Prop}
    (hQ : ∀ {r r' s s' t t'}, Same s s' → Same t t' → Q r s r' t → Q r s' r' t')
    (hhandled : BothEnd
      ((candidates.map (parsed content)).foldlM (handle { settings with policy := policy } sink)
        Tally.zero).run s
      ((candidates'.map (parsed content)).foldlM (handle { settings with policy := policy' } sink)
        Tally.zero).run t Q) :
    BothEnd (writeEntries { settings with policy := policy } sink candidates).run s
      (writeEntries { settings with policy := policy' } sink candidates').run t Q := by
  obtain ⟨r, s₁, r', t₁, hr, hr', hq⟩ := hhandled
  obtain ⟨_, s₂, _, _, hleft, hhandle, heq, hs₂⟩ := twins_writeEntries hsame hsink h (hsame.refl s)
  obtain ⟨_, t₂, _, _, hright, hhandle', heq', ht₂⟩ :=
    twins_writeEntries hsame hsink h' (hsame.refl t)
  obtain ⟨rfl, rfl⟩ := hr.unique hhandle
  obtain ⟨rfl, rfl⟩ := hr'.unique hhandle'
  cases heq.eq
  cases heq'.eq
  exact ⟨_, s₂, _, t₂, hleft, hright, hQ (hsame.symm hs₂) (hsame.symm ht₂) hq⟩

theorem twins_entries {sink : Sink m} (hsame : Equivalence Same) (hsink : sink.Overlooks Same)
    (h : ∀ c ∈ candidates, c.Reads content Same) (h' : ∀ c ∈ candidates', c.Reads content Same)
    (hlines : SameLines content policy policy' candidates candidates' V) (hs : Same s t) :
    BothEnd (writeEntries { settings with policy := policy } sink candidates).run s
      (writeEntries { settings with policy := policy' } sink candidates').run t
      (Alike (Twins V) Same) := by
  refine bothEnd_entries hsame hsink h h' (fun hs ht hq => ?_) ?_
  · exact ⟨hq.1, hsame.trans (hsame.symm hs) (hsame.trans hq.2 ht)⟩
  · rw [foldlM_handle, foldlM_handle, hlines.written]
    refine ((overlooks_writeLines hsink _).twins hs).run_bind fun _ s' _ t' _ hs' => ?_
    exact .pure ⟨hlines.fold, hs'⟩

/-- The digest is that of the lines, so it does not tell the runs apart. -/
def Digested (V : Tally → Tally → Prop) (filled filled' : Tally × String) : Prop :=
  V filled.1 filled'.1 ∧ filled.2 = filled'.2

theorem twins_fill {file : Sink m} (hsame : Equivalence Same) (hfile : file.Overlooks Same)
    (h : ∀ c ∈ candidates, c.Reads content Same) (h' : ∀ c ∈ candidates', c.Reads content Same)
    (hlines : SameLines content policy policy' candidates candidates' V)
    {p q : (Digest × Buffer × own) × σ} (hp : Lifted (Lifted Same) p q) :
    BothEnd (fill { settings with policy := policy } file candidates).run p
      (fill { settings with policy := policy' } file candidates').run q
      (Alike (Twins (Digested V)) (Lifted (Lifted Same))) := by
  have hsink := hfile.buffered.digesting
  have hlines' : SameLines content policy policy' (beside file candidates)
      (beside file candidates') V := by
    constructor
    · rw [map_parsed_beside, map_parsed_beside]
      exact hlines.written
    · rw [map_parsed_beside, map_parsed_beside]
      exact hlines.fold
  refine (twins_entries (Lifted.equivalence (Lifted.equivalence hsame)) hsink (reads_beside h file)
    (reads_beside h' file) hlines' hp).run_bind fun tally p' tally' q' hV hp' => ?_
  refine (hsink.flush.adapt.twins hp').run_bind fun _ p' _ q' _ hp' => ?_
  refine (overlooks_run_getThe.twins hp').run_bind fun digest p' digest' q' hdigest hp' => ?_
  exact .pure ⟨⟨hV, congrArg Digest.hex hdigest⟩, hp'⟩

theorem twins_fillFile {file : Sink m} (hsame : Equivalence Same) (hfile : file.Overlooks Same)
    (h : ∀ c ∈ candidates, c.Reads content Same) (h' : ∀ c ∈ candidates', c.Reads content Same)
    (hlines : SameLines content policy policy' candidates candidates' V) (hs : Same s t) :
    BothEnd (fillFile { settings with policy := policy } file candidates) s
      (fillFile { settings with policy := policy' } file candidates') t
      (Alike (Twins (Digested V)) Same) := by
  have hstart : Lifted (Lifted Same) ((Digest.empty, Buffer.empty, s.1), s.2)
      ((Digest.empty, Buffer.empty, t.1), t.2) := ⟨rfl, rfl, hs⟩
  refine (BothEnd.run (BothEnd.run (twins_fill hsame hfile h h' hlines hstart))).bind ?_
  rintro ⟨⟨r, digest⟩, buffer⟩ s' ⟨⟨r', digest'⟩, buffer'⟩ t' ⟨hr, -, hbuffer, hs'⟩
  cases hbuffer
  refine ((Buffer.overlooks_drain hfile).stateT_run buffer s' t' hs').discard.bind
    fun _ s'' _ t'' hs'' => ?_
  exact .pure ⟨hr, hs''.2⟩

variable [FileSystem m] [CarriesTree own σ m]

theorem overlooks_makeParent (hsame : FileSystem.BlindTo (m := m) Same) (output : Path) :
    Overlooks Same (makeParent output : ExceptT Failure m Unit).run := by
  have hpresent (path : Path) (fault : Fault) :
      Overlooks Same (FileSystem.orPresent path fault : ExceptT Fault m Unit).run := by
    refine Overlooks.run_bind (Overlooks.run_tryCatch ?_ fun _ => overlooks_pure _) fun present => ?_
    · exact (hsame.kind path).run_bind fun _ => overlooks_pure _
    · cases present
      · exact overlooks_pure _
      · exact overlooks_pure _
  have hmake (paths : List Path) :
      Overlooks Same (FileSystem.makeWithAncestors paths : ExceptT Fault m Unit).run := by
    induction paths with
    | nil => exact overlooks_pure _
    | cons path above ih =>
      unfold FileSystem.makeWithAncestors
      split
      · exact overlooks_pure _
      · refine (hsame.makeDirectory path).run_tryCatch fun fault => ?_
        split
        · exact ih.run_bind fun _ => (hsame.makeDirectory path).run_tryCatch fun _ => hpresent path _
        · exact hpresent path fault
  rw [makeParent]
  split
  · split
    · exact overlooks_pure _
    · exact (hmake _).adapt
  · exact overlooks_pure _

/-- Two reports on the same lines. -/
theorem twins_makeReport (settings : Settings) (hsame : FileSystem.BlindTo (m := m) Same)
    (h : ∀ c ∈ candidates, c.Reads content Same) (h' : ∀ c ∈ candidates', c.Reads content Same)
    (hlines : SameLines content policy policy' candidates candidates' V) (hs : Same s t) :
    BothEnd (makeReport { settings with policy := policy } candidates).run s
      (makeReport { settings with policy := policy' } candidates').run t
      (Alike (Twins fun summary summary' => ∃ tally tally' digest, V tally tally' ∧
        summary = Settings.summary { settings with policy := policy } candidates.length tally
          digest ∧
        summary' = Settings.summary { settings with policy := policy' } candidates'.length tally'
          digest) Same) := by
  refine ((overlooks_makeParent hsame settings.output).twins hs).run_bind
    fun _ s₁ _ t₁ _ hs₁ => ?_
  refine (hsame.create (temporary settings.output) hs₁).adapt.run_bind
    fun file s₂ file' t₂ hfile hs₂ => ?_
  obtain ⟨rfl, hfile⟩ := hfile
  refine BothEnd.run_bind (twins_fillFile hsame.equivalence hfile h h' hlines hs₂).lift
    fun r s₃ r' t₃ hr hs₃ => ?_
  rcases r with failure | ⟨tally, digest⟩ <;> rcases r' with failure' | ⟨tally', digest'⟩
  · cases hr
    refine BothEnd.run_bind (BothEnd.lift (hsame.remove (temporary settings.output) s₃ t₃ hs₃))
      fun _ s₄ _ t₄ _ hs₄ => ?_
    exact .pure ⟨rfl, hs₄⟩
  · exact hr.elim
  · exact hr.elim
  · obtain ⟨hV, hdigest⟩ := hr
    cases hdigest
    refine ((hsame.rename (temporary settings.output) settings.output).twins hs₃).adapt.run_bind
      fun _ s₄ _ t₄ _ hs₄ => ?_
    exact .pure ⟨⟨tally, tally', digest, hV, rfl, rfl⟩, hs₄⟩

end

/-! ## A report that is cut short -/

section
variable [LawfulMonad m] {content : String → Except Failure Bytes} {settings : Settings}
  {policy policy' : Policy} {candidates candidates' : List (Candidate m)} {failure : Failure}

theorem misses_entries {sink : Sink m} (hsame : Equivalence Same) (hsink : sink.Overlooks Same)
    (h : ∀ c ∈ candidates, c.Reads content Same) (h' : ∀ c ∈ candidates', c.Reads content Same)
    (hcut : CutShort content policy policy' candidates candidates' failure) (hs : Same s t) :
    BothEnd (writeEntries { settings with policy := policy } sink candidates).run s
      (writeEntries { settings with policy := policy' } sink candidates').run t
      (Misses failure) := by
  refine bothEnd_entries hsame hsink h h' (fun _ _ hq => hq) ?_
  obtain ⟨rest, hrest⟩ := hcut.written
  rw [foldlM_handle, foldlM_handle, ← hrest, writeLines_append, bind_assoc, hcut.fold]
  refine ((overlooks_writeLines hsink _).twins hs).misses_of_twins fun _ s' _ t' _ _ => ?_
  have hends : Overlooks Same (writeLines { settings with policy := policy } sink rest >>=
      fun _ => ExceptT.mk (pure ((candidates.map (parsed content)).foldlM (Tally.step policy)
        Tally.zero))).run :=
    (overlooks_writeLines hsink rest).run_bind fun _ => overlooks_pure _
  obtain ⟨r, s'', hr⟩ := Overlooks.exists_endsWith hends hsame s'
  exact ⟨r, s'', _, t', hr, RunsOver.exec_pure _ t', failure, rfl, fun _ _ => rfl⟩

theorem misses_fill {file : Sink m} (hsame : Equivalence Same) (hfile : file.Overlooks Same)
    (h : ∀ c ∈ candidates, c.Reads content Same) (h' : ∀ c ∈ candidates', c.Reads content Same)
    (hcut : CutShort content policy policy' candidates candidates' failure)
    {p q : (Digest × Buffer × own) × σ} (hp : Lifted (Lifted Same) p q) :
    BothEnd (fill { settings with policy := policy } file candidates).run p
      (fill { settings with policy := policy' } file candidates').run q (Misses failure) := by
  have hsink := hfile.buffered.digesting
  have hsame' : Equivalence (Lifted (τ := Digest) (Lifted (τ := Buffer) Same)) :=
    Lifted.equivalence (Lifted.equivalence hsame)
  have hcut' : CutShort content policy policy' (beside file candidates)
      (beside file candidates') failure := by
    constructor
    · rw [map_parsed_beside, map_parsed_beside]
      exact hcut.written
    · rw [map_parsed_beside]
      exact hcut.fold
  refine (misses_entries hsame' hsink (reads_beside h file) (reads_beside h' file) hcut'
    hp).run_bind_of_misses fun tally p' => ?_
  have hends : Overlooks (Lifted (Lifted Same)) (do
      file.buffered.digesting.flush.adapt (Failure.unwritable (temporary settings.output))
      return (tally, (← getThe Digest).hex) :
        ExceptT Failure (StateT Digest (StateT Buffer m)) (Tally × String)).run :=
    hsink.flush.adapt.run_bind fun _ => overlooks_run_getThe.run_bind fun _ => overlooks_pure _
  exact hends.exists_endsWith hsame' p'

theorem misses_fillFile {file : Sink m} (hsame : Equivalence Same) (hfile : file.Overlooks Same)
    (h : ∀ c ∈ candidates, c.Reads content Same) (h' : ∀ c ∈ candidates', c.Reads content Same)
    (hcut : CutShort content policy policy' candidates candidates' failure) (hs : Same s t) :
    BothEnd (fillFile { settings with policy := policy } file candidates) s
      (fillFile { settings with policy := policy' } file candidates') t (Misses failure) := by
  have hstart : Lifted (Lifted Same) ((Digest.empty, Buffer.empty, s.1), s.2)
      ((Digest.empty, Buffer.empty, t.1), t.2) := ⟨rfl, rfl, hs⟩
  refine (BothEnd.run (BothEnd.run (misses_fill hsame hfile h h' hcut hstart))).bind ?_
  rintro ⟨⟨r, digest⟩, buffer⟩ s' ⟨⟨r', digest'⟩, buffer'⟩ t' hmisses
  have hdrain (buffer : Buffer) := (Buffer.overlooks_drain hfile).stateT_run buffer
  obtain ⟨_, s'', hs''⟩ := (hdrain buffer).exists_endsWith hsame s'
  obtain ⟨_, t'', ht''⟩ := (hdrain buffer').exists_endsWith hsame t'
  exact ⟨r, s'', r', t'', hs''.discard.bind (RunsOver.exec_pure r s''),
    ht''.discard.bind (RunsOver.exec_pure r' t''), hmisses⟩

variable [FileSystem m] [CarriesTree own σ m]

/-- A report on lines that go on beside one that is cut short. -/
theorem misses_makeReport (settings : Settings) (hsame : FileSystem.BlindTo (m := m) Same)
    (h : ∀ c ∈ candidates, c.Reads content Same) (h' : ∀ c ∈ candidates', c.Reads content Same)
    (hcut : CutShort content policy policy' candidates candidates' failure) (hs : Same s t) :
    BothEnd (makeReport { settings with policy := policy } candidates).run s
      (makeReport { settings with policy := policy' } candidates').run t (Misses failure) := by
  have hequiv := hsame.equivalence
  have hfail (failure : Failure) (s : own × σ) : ∃ s', EndsWith (do
      let _ ← ExceptT.lift (FileSystem.remove (temporary settings.output) :
        ExceptT Fault m Unit).run
      throw failure : ExceptT Failure m Summary).run s (.error failure) s' := by
    obtain ⟨_, s', hs'⟩ := (hsame.remove (temporary settings.output)).exists_endsWith hequiv s
    refine ⟨s', ?_⟩
    rw [ExceptT.run_bind_lift]
    exact hs'.bind (RunsOver.exec_pure _ s')
  have hpublish (summary : Summary) : Overlooks Same (do
      (FileSystem.rename (temporary settings.output) settings.output).adapt
        (Failure.unwritable settings.output)
      return summary : ExceptT Failure m Summary).run :=
    (hsame.rename _ _).adapt.run_bind fun _ => overlooks_pure _
  refine ((overlooks_makeParent hsame settings.output).twins hs).misses_of_twins
    fun _ s₁ _ t₁ _ hs₁ => ?_
  refine (hsame.create (temporary settings.output) hs₁).adapt.misses_of_twins
    fun file s₂ file' t₂ hfile hs₂ => ?_
  obtain ⟨rfl, hfile⟩ := hfile
  obtain ⟨r, s₃, _, t₃, hleft, hright, failure', rfl, hfailure⟩ :=
    misses_fillFile hequiv hfile h h' hcut hs₂
  obtain ⟨t₄, ht₄⟩ := hfail failure' t₃
  rw [ExceptT.run_bind_lift, ExceptT.run_bind_lift]
  rcases r with failure'' | ⟨tally, digest⟩
  · obtain ⟨s₄, hs₄⟩ := hfail failure'' s₃
    exact ⟨_, s₄, _, t₄, hleft.bind hs₄, hright.bind ht₄, failure', rfl, nofun⟩
  · obtain ⟨r, s₄, hs₄⟩ := (hpublish (Settings.summary { settings with policy := policy }
      candidates.length tally digest)).exists_endsWith hequiv s₃
    exact ⟨r, s₄, _, t₄, hleft.bind hs₄, hright.bind ht₄, failure', rfl,
      fun _ _ => hfailure _ rfl⟩

end

/-! ## The two policies -/

section
variable [LawfulMonad m] [FileSystem m] [CarriesTree own σ m]
  {content : String → Except Failure Bytes} {settings : Settings} {candidates : List (Candidate m)}

/-- A run that leaves failures out makes the report that a run which ends at the first failure makes
on the other candidates, and lists the failures in order. On all candidates the latter ends with the
first of them; if there is none, the two runs differ in the policy that the summary tells of. -/
theorem policies_agree (hblind : FileSystem.BlindTo (m := m) Same)
    (hreads : ∀ c ∈ candidates, c.Reads content Same) {s s' t : own × σ} {summary : Summary}
    (hs : Same s t)
    (h : EndsWith (makeReport { settings with policy := .skipAndContinue } candidates).run s
      (.ok summary) s') :
    let failFast := { settings with policy := .failFast }
    summary.failed = (candidates.filterMap (obstacle? content)).map
        (fun failure => ⟨failure.subject, failure.message⟩) ∧
      (∃ t', EndsWith (makeReport failFast (others content candidates)).run t
          (.ok { summary with
            policy := .failFast
            candidates := (others content candidates).length
            failed := [] }) t' ∧
        Same s' t' ∧ tree m s'.2 = tree m t'.2) ∧
      ∃ r t', EndsWith (makeReport failFast candidates).run t r t' ∧
        ((∃ failure, r = .error failure) ↔ summary.failed ≠ []) ∧
        (∀ failure, r = .error failure →
          summary.failed.head? = some ⟨failure.subject, failure.message⟩) ∧
        ∀ summary', r = .ok summary' →
          summary' = { summary with policy := .failFast } ∧ Same s' t' ∧
            tree m s'.2 = tree m t'.2 := by
  intro failFast
  have hothers : ∀ c ∈ others content candidates, c.Reads content Same := fun c hc =>
    hreads c (List.mem_of_mem_filter hc)
  obtain ⟨r, s₁, r', t', hskip, hrest, htwins, hs'⟩ :=
    twins_makeReport settings hblind hreads hothers sameLines_others hs
  obtain ⟨rfl, rfl⟩ := hskip.unique h
  obtain ⟨summary', rfl⟩ : ∃ summary', r' = .ok summary' := by
    cases r' with
    | error failure => exact htwins.elim
    | ok summary' => exact ⟨summary', rfl⟩
  obtain ⟨tally, tally', digest, ⟨hfailed, htally⟩, hsummary, hsummary'⟩ := htwins
  have hsame : summary' = { summary with
      policy := .failFast
      candidates := (others content candidates).length
      failed := [] } := by
    rw [hsummary', hsummary, htally]
    rfl
  have hlisted : summary.failed = (candidates.filterMap (obstacle? content)).map Failure.entry := by
    rw [hsummary, ← hfailed]
    rfl
  rw [hsame] at hrest
  have htree := hblind.tree hs'
  refine ⟨hlisted, ⟨t', hrest, hs', htree⟩, ?_⟩
  rcases hobstacles : candidates.filterMap (obstacle? content) with _ | ⟨failure, rest⟩
  · have hcount : summary.candidates = candidates.length := by
      rw [hsummary]
      rfl
    have hnone : summary.failed = [] := by
      rw [hlisted, hobstacles]
      rfl
    rw [others_eq_self hobstacles, ← hcount, ← hnone] at hrest
    refine ⟨_, t', hrest, ?_, nofun, ?_⟩
    · simp [hnone]
    · rintro _ ⟨⟩
      exact ⟨rfl, hs', htree⟩
  · obtain ⟨r, s₁, _, t₁, hskip, hcut, failure', rfl, hfirst⟩ :=
      misses_makeReport settings hblind hreads hreads (cutShort_of_obstacles hobstacles) hs
    obtain ⟨rfl, rfl⟩ := hskip.unique h
    cases hfirst _ rfl
    rw [hobstacles] at hlisted
    refine ⟨_, t₁, hcut, ?_, ?_, nofun⟩
    · simp [hlisted]
    · rintro _ ⟨⟩
      rw [hlisted]
      rfl

end

/-- A file that is no class file, a class, and a file that cannot be read. -/
def mixedSource : MemorySource :=
  ⟨[⟨"bad.class", .ok []⟩, ⟨"a.class", .ok bareClass⟩,
    ⟨"gone.class", .error (.unreadable "gone.class" (.other "lost"))⟩], none⟩

/-- Reading puts names on a trace, at which the file system does not look. -/
theorem policies_agree_mixedSource :
    let candidates : List (Candidate (StateT Trace World)) :=
      (mixedSource.candidates ["bad.class", "a.class", "gone.class"]).map Candidate.traced
    let start : (Trace × Unit) × FileTree := ((⟨[]⟩, ()), FileTree.initial)
    let skip : Settings := { settingsFor "out" with policy := .skipAndContinue }
    ∃ summary s', EndsWith (makeReport skip candidates).run start (.ok summary) s' ∧
      s'.2.object? (.ofString "out") = some (.file (Utf8.encode "class: a\n")) ∧
      summary.failed.map (·.path) = ["bad.class", "gone.class"] ∧
      (others mixedSource.content candidates).map (·.name) = ["a.class"] ∧
      (∃ t', EndsWith (makeReport (settingsFor "out") (others mixedSource.content candidates)).run
          start (.ok { summary with policy := .failFast, candidates := 1, failed := [] }) t' ∧
        s'.2 = t'.2) ∧
      ∃ failure t', EndsWith (makeReport (settingsFor "out") candidates).run start
          (.error failure) t' ∧ failure.subject = "bad.class" := by
  intro candidates start skip
  have hreads : ∀ c ∈ candidates, c.Reads mixedSource.content (Aside Eq) := by
    intro c hc p
    obtain ⟨c', hc', rfl⟩ := List.mem_map.mp hc
    obtain ⟨name, -, rfl⟩ := List.mem_map.mp hc'
    exact ⟨((⟨p.1.1.names ++ [name]⟩, p.1.2), p.2), rfl, rfl⟩
  obtain ⟨summary, s', hskip, houtput⟩ : ∃ summary s',
      EndsWith (makeReport skip candidates).run start (.ok summary) s' ∧
        s'.2.object? (.ofString "out") = some (.file (Utf8.encode "class: a\n")) := by
    have houtput : (RunsOver.exec (makeReport skip candidates).run start).2.object?
        (.ofString "out") = some (.file (Utf8.encode "class: a\n")) := by decide +kernel
    have hok : ((RunsOver.exec (makeReport skip candidates).run start).1.toOption.bind
        (·.1.toOption)).isSome = true := by decide +kernel
    rcases hrun : RunsOver.exec (makeReport skip candidates).run start with
      ⟨abort | ⟨failure | summary, trace⟩, after⟩
    · rw [hrun] at hok
      cases hok
    · rw [hrun] at hok
      cases hok
    · rw [hrun] at houtput
      exact ⟨summary, (trace, after), hrun, houtput⟩
  obtain ⟨hfailed, ⟨t', hrest, -, htree⟩, r, t'', hall, hfails, hfirst, -⟩ :=
    policies_agree FileTree.blindTo_aside hreads rfl hskip
  have hothers : (others mixedSource.content candidates).map (·.name) = ["a.class"] := by
    decide +kernel
  have hcount : (others mixedSource.content candidates).length = 1 := by
    rw [← List.length_map, hothers]
    rfl
  have hpaths : summary.failed.map (·.path) = ["bad.class", "gone.class"] := by
    rw [hfailed]
    decide +kernel
  obtain ⟨failure, rfl⟩ := hfails.mpr fun hnone => by simp [hnone] at hpaths
  have hpath := congrArg List.head? hpaths
  rw [List.head?_map, hfirst failure rfl] at hpath
  rw [hcount] at hrest
  exact ⟨summary, s', hskip, houtput, hpaths, hothers, ⟨t', hrest, htree⟩, failure, t'', hall,
    Option.some.inj hpath⟩

end Dump

end JvmSymbols
