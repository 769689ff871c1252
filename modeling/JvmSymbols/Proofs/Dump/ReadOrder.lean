import JvmSymbols.Proofs.Dump.ReadLog
import JvmSymbols.Source.Memory

/-!
# Which candidates are read

Candidates are read in their order, at most one batch ahead of what is handled. Where reading stops
is said of the log: of one batch by `ReadThrough`, of all batches by `InBatches`.
-/

namespace JvmSymbols

open Archive (Abort)
open Dump (Failure Pending)

namespace ReadLog

/-- The log of reads that all ended. -/
def ofResults (results : List Pending) : ReadLog := ⟨results.map Prod.fst, results⟩

def append (log log' : ReadLog) : ReadLog :=
  ⟨log.names ++ log'.names, log.results ++ log'.results⟩

theorem append_empty (log : ReadLog) : log.append empty = log := by
  simp [append, empty]

theorem empty_append (log : ReadLog) : empty.append log = log := rfl

theorem append_assoc (a b c : ReadLog) : (a.append b).append c = a.append (b.append c) := by
  simp [append]

theorem answer_ask (log : ReadLog) (pending : Pending) :
    (log.ask pending.1).answer pending = log.append (ofResults [pending]) := rfl

end ReadLog

namespace Dump

/-- The candidate could not be read. -/
def Pending.unread (pending : Pending) : Bool :=
  match pending.2 with
  | .ok _ => false
  | .error _ => true

theorem Pending.unread_eq_false {pending : Pending} (h : pending.fails = false) :
    pending.unread = false := by
  obtain ⟨name, failure | bytes⟩ := pending
  · cases h
  · rfl

/-! ## How far reading gets -/

/-- How many of `count` candidates are read ahead: all of them, or those through the first one that
cannot be read if that ends the run. -/
def ahead (policy : Policy) (count : Nat) (results : List Pending) : Nat :=
  match policy with
  | .failFast => (results.findIdx? Pending.unread).elim count (· + 1)
  | .skipAndContinue => count

theorem ahead_cons {policy : Policy} {count : Nat} {pending : Pending} {results : List Pending}
    (h : policy = .failFast → pending.unread = false) :
    ahead policy (count + 1) (pending :: results) = ahead policy count results + 1 := by
  cases policy with
  | failFast =>
    rw [ahead, ahead, List.findIdx?_cons, h rfl, if_neg Bool.false_ne_true]
    cases results.findIdx? Pending.unread <;> rfl
  | skipAndContinue => rfl

theorem ahead_le {policy : Policy} {count : Nat} {results : List Pending}
    (h : results.length ≤ count) : ahead policy count results ≤ count := by
  cases policy with
  | failFast =>
    rw [ahead]
    rcases hk : results.findIdx? Pending.unread with _ | k
    · exact Nat.le_refl _
    · exact Nat.le_trans (List.findIdx?_eq_some_iff_getElem.mp hk).1 h
  | skipAndContinue => exact Nat.le_refl _

/-- Without a failure that is to end the run all candidates are read. -/
theorem ahead_eq {policy : Policy} {count : Nat} {results : List Pending}
    (h : policy = .failFast → ∀ pending ∈ results, pending.fails = false) :
    ahead policy count results = count := by
  cases policy with
  | failFast =>
    have hnone : results.findIdx? Pending.unread = none :=
      List.findIdx?_eq_none_iff.mpr fun pending hmem =>
        Pending.unread_eq_false (h rfl pending hmem)
    rw [ahead, hnone]
    rfl
  | skipAndContinue => rfl

/-- The reads that were begun are those of the first names, and a failure is the last one that is
read if that ends the run. -/
structure InOrder (policy : Policy) (names : List String) (log : ReadLog) : Prop where
  order : log.names <+: names
  replies : log.results.map Prod.fst <+: log.names
  stops : policy = .failFast → ∀ (k : Nat) (pending : Pending), log.results[k]? = some pending →
    pending.unread = true → log.names.length = k + 1

theorem InOrder.mono {policy : Policy} {names names' : List String} {log : ReadLog}
    (h : InOrder policy names log) (hnames : names <+: names') : InOrder policy names' log :=
  ⟨h.order.trans hnames, h.replies, h.stops⟩

/-- The results are those of all candidates, or the last one ends the run. -/
structure ReadThrough (policy : Policy) (names : List String) (results : List Pending) : Prop where
  order : ∀ count, names.length ≤ count →
    results.map Prod.fst = names.take (ahead policy count results)
  stops : policy = .failFast → ∀ (k : Nat) (pending : Pending), results[k]? = some pending →
    pending.unread = true → results.length = k + 1

theorem ReadThrough.inOrder {policy : Policy} {names : List String} {results : List Pending}
    (h : ReadThrough policy names results) : InOrder policy names (.ofResults results) where
  order := by
    rw [ReadLog.ofResults, h.order names.length (Nat.le_refl _)]
    exact List.take_prefix _ _
  replies := List.prefix_refl _
  stops hpolicy k pending hk hunread := by
    rw [ReadLog.ofResults, List.length_map]
    exact h.stops hpolicy k pending hk hunread

/-- A candidate that is read before the others does not change which one is the last. -/
theorem stops_cons {pending : Pending} {results : List Pending} {count : Nat}
    (h : ∀ (k : Nat) (p : Pending), results[k]? = some p → p.unread = true → count = k + 1)
    (hon : pending.unread = false) (k : Nat) (p : Pending) (hk : (pending :: results)[k]? = some p)
    (hunread : p.unread = true) : count + 1 = k + 1 := by
  cases k with
  | zero =>
    obtain rfl : pending = p := by simpa using hk
    rw [hon] at hunread
    cases hunread
  | succ k => rw [h k p (by simpa using hk) hunread]

theorem ReadThrough.cons {policy : Policy} {names : List String} {pending : Pending}
    {results : List Pending} (h : ReadThrough policy names results)
    (hon : policy = .failFast → pending.unread = false) :
    ReadThrough policy (pending.1 :: names) (pending :: results) where
  order count hcount := by
    obtain ⟨count, rfl⟩ : ∃ n, count = n + 1 := ⟨count - 1, by simp at hcount; omega⟩
    rw [ahead_cons hon, List.take_succ_cons, List.map_cons,
      h.order count (Nat.le_of_succ_le_succ hcount)]
  stops hpolicy := stops_cons (h.stops hpolicy) (hon hpolicy)

theorem readThrough_failure (name : String) (names : List String) (failure : Failure) :
    ReadThrough .failFast (name :: names) [(name, .error failure)] where
  order _ _ := rfl
  stops _ k pending hk _ := by
    cases k with
    | zero => rfl
    | succ k => cases hk

theorem InOrder.cons {policy : Policy} {names : List String} {pending : Pending} {log : ReadLog}
    (h : InOrder policy names log) (hon : policy = .failFast → pending.unread = false) :
    InOrder policy (pending.1 :: names) ((ReadLog.ofResults [pending]).append log) where
  order := List.cons_prefix_cons.mpr ⟨rfl, h.order⟩
  replies := List.cons_prefix_cons.mpr ⟨rfl, h.replies⟩
  stops hpolicy := stops_cons (h.stops hpolicy) (hon hpolicy)

theorem InOrder.behind {policy : Policy} {names : List String} {results : List Pending}
    {log : ReadLog} (h : InOrder policy names log)
    (hon : policy = .failFast → ∀ pending ∈ results, pending.unread = false) :
    InOrder policy (results.map Prod.fst ++ names) ((ReadLog.ofResults results).append log) := by
  induction results with
  | nil => exact h
  | cons pending results ih =>
    exact (ih fun hpolicy => (List.forall_mem_cons.mp (hon hpolicy)).2).cons
      fun hpolicy => (List.forall_mem_cons.mp (hon hpolicy)).1

/-! ## What the log says of a run -/

/-- What the candidates come to that were read. A run ends with it unless a write fails. -/
def comesTo (settings : Settings) (tally : Tally) (results : List Pending) : Except Failure Tally :=
  (results.map Pending.parse).foldlM (Tally.step settings.policy) tally

/-- The log of a run that had counted `tally` and was to handle the candidates called `names`. -/
structure InBatches (settings : Settings) (tally : Tally) (names : List String) (log : ReadLog)
    (outcome : Except Abort (Except Failure Tally)) : Prop extends
    InOrder settings.policy names log where
  /-- Reads that are begun come to an end unless the run is given up. -/
  answered : ∀ r, outcome = .ok r → log.results.map Prod.fst = log.names
  /-- Only a failure to write ends the run with anything but what the candidates come to. -/
  result : ∀ r, outcome = .ok r → r = comesTo settings tally log.results ∨
    ∃ fault, r = .error (.unwritable settings.output fault)
  /-- All candidates are read if none of them ends the run. -/
  whole : outcome = .ok (comesTo settings tally log.results) →
    (settings.policy = .skipAndContinue ∨ ∀ pending ∈ log.results, pending.fails = false) →
    log.names = names
  /-- Reading does not go beyond the batch of the first failure if that is to end the run. -/
  within : settings.policy = .failFast → ∀ f, log.results.findIdx? Pending.fails = some f →
    log.names.length ≤ batchSize * (f / batchSize) + batchSize
  /-- The batch of that failure is read through its first candidate that cannot be read. -/
  batch : settings.policy = .failFast → ∀ r, outcome = .ok r →
    ∀ f, log.results.findIdx? Pending.fails = some f →
      log.names = names.take (batchSize * (f / batchSize) +
        ahead .failFast batchSize (log.results.drop (batchSize * (f / batchSize))))

section
variable {settings : Settings} {tally tally' : Tally} {names : List String}
  {results : List Pending} {log : ReadLog} {outcome : Except Abort (Except Failure Tally)}

theorem fails_of_step_error {policy : Policy} {pending : Pending} {failure : Failure}
    (h : tally.step policy pending.parse = .error failure) :
    policy = .failFast ∧ pending.fails = true := by
  rw [Pending.fails]
  rcases hparse : pending.parse with cause | symbols <;> rw [hparse] at h
  · cases policy with
    | failFast => exact ⟨rfl, rfl⟩
    | skipAndContinue => cases h
  · cases h

theorem comesTo_error {failure : Failure} (h : comesTo settings tally results = .error failure) :
    settings.policy = .failFast ∧ ∃ pending ∈ results, pending.fails = true := by
  induction results generalizing tally with
  | nil => cases h
  | cons pending results ih =>
    rw [comesTo, List.map_cons, List.foldlM_cons] at h
    rcases hstep : tally.step settings.policy pending.parse with cause | tally'
    · obtain ⟨hpolicy, hfails⟩ := fails_of_step_error hstep
      exact ⟨hpolicy, pending, List.mem_cons_self, hfails⟩
    · rw [hstep] at h
      obtain ⟨hpolicy, pending', hmem, hfails⟩ := ih h
      exact ⟨hpolicy, pending', List.mem_cons_of_mem _ hmem, hfails⟩

theorem comesTo_append {results' : List Pending}
    (h : comesTo settings tally results = .ok tally') :
    comesTo settings tally (results ++ results') = comesTo settings tally' results' := by
  rw [comesTo, comesTo, List.map_append, List.foldlM_append]
  rw [comesTo] at h
  rw [h]
  rfl

theorem fails_of_comesTo_ok (h : comesTo settings tally results = .ok tally') :
    settings.policy = .failFast → ∀ pending ∈ results, pending.fails = false := by
  intro hpolicy
  induction results generalizing tally with
  | nil => exact nofun
  | cons pending results ih =>
    rw [comesTo, List.map_cons, List.foldlM_cons, hpolicy] at h
    rcases hparse : pending.parse with failure | symbols <;> rw [hparse] at h
    · cases h
    · have hrest : comesTo settings (tally.record symbols) results = .ok tally' := by
        rw [comesTo, hpolicy]
        exact h
      exact List.forall_mem_cons.mpr ⟨by rw [Pending.fails, hparse], ih hrest⟩

theorem inBatches_nil (settings : Settings) (tally : Tally) :
    InBatches settings tally [] .empty (.ok (.ok tally)) where
  order := List.nil_prefix
  replies := List.nil_prefix
  stops := nofun
  answered _ _ := rfl
  result _ hr := .inl (Except.ok.inj hr).symm
  whole _ _ := rfl
  within := nofun
  batch := nofun

/-- The run was given up in its first batch. -/
theorem inBatches_of_abort (h : InOrder settings.policy (names.take batchSize) log)
    (abort : Abort) : InBatches settings tally names log (.error abort) where
  toInOrder := h.mono (List.take_prefix _ _)
  answered := nofun
  result := nofun
  whole := nofun
  within _ f _ := by
    have hlength := h.order.length_le
    rw [List.length_take] at hlength
    omega
  batch := nofun

/-- The run ended with a failure in its first batch. -/
theorem inBatches_of_error {failure : Failure}
    (h : ReadThrough settings.policy (names.take batchSize) results)
    (hresult : Except.error failure = comesTo settings tally results ∨
      ∃ fault, (.error failure : Except Failure Tally) = .error (.unwritable settings.output fault)) :
    InBatches settings tally names (.ofResults results) (.ok (.error failure)) := by
  have hlength : results.length ≤ batchSize := by
    have hle := h.inOrder.order.length_le
    rw [ReadLog.ofResults, List.length_map, List.length_take] at hle
    omega
  refine ⟨h.inOrder.mono (List.take_prefix _ _), fun _ _ => rfl, ?_, ?_, ?_, ?_⟩
  · rintro r ⟨⟩
    exact hresult
  · intro hcomes hgood
    obtain ⟨hpolicy, pending, hmem, hfails⟩ := comesTo_error (Except.ok.inj hcomes).symm
    rcases hgood with hskip | hgood
    · rw [hpolicy] at hskip
      cases hskip
    · rw [hgood pending hmem] at hfails
      cases hfails
  · intro _ f _
    rw [ReadLog.ofResults, List.length_map]
    omega
  · intro hpolicy r _ f hf
    have hf' : f < results.length := (List.findIdx?_eq_some_iff_getElem.mp hf).1
    have hstart : f / batchSize = 0 := Nat.div_eq_of_lt (Nat.lt_of_lt_of_le hf' hlength)
    have hnames := h.order batchSize (List.length_take_le _ _)
    rw [hpolicy, List.take_take, Nat.min_eq_left (ahead_le hlength)] at hnames
    rw [hstart, Nat.mul_zero, Nat.zero_add, List.drop_zero]
    exact hnames

/-- The first batch was handled, and the log of the others stands behind its results. -/
theorem InBatches.behind (h : InBatches settings tally' (names.drop batchSize) log outcome)
    (hthrough : ReadThrough settings.policy (names.take batchSize) results)
    (hcomes : comesTo settings tally results = .ok tally') :
    InBatches settings tally names ((ReadLog.ofResults results).append log) outcome := by
  have hgood := fails_of_comesTo_ok hcomes
  have hnames : results.map Prod.fst = names.take batchSize := by
    rw [hthrough.order batchSize (List.length_take_le _ _), ahead_eq hgood, List.take_take,
      Nat.min_self]
  -- a failure that is to end the run stands behind the first batch, which is full then
  have hfirst (hpolicy : settings.policy = .failFast) (f : Nat)
      (hf : (results ++ log.results).findIdx? Pending.fails = some f) :
      ∃ f', log.results.findIdx? Pending.fails = some f' ∧ f = batchSize + f' ∧
        results.length = batchSize := by
    rw [List.findIdx?_append, List.findIdx?_eq_none_iff.mpr (hgood hpolicy), Option.none_or] at hf
    obtain ⟨f', hf', rfl⟩ := Option.map_eq_some_iff.mp hf
    have hsome : f' < log.results.length := (List.findIdx?_eq_some_iff_getElem.mp hf').1
    have hreplies := h.replies.length_le
    have hrest := h.order.length_le
    have hfull := congrArg List.length hnames
    rw [List.length_map] at hreplies
    rw [List.length_drop] at hrest
    rw [List.length_map, List.length_take] at hfull
    exact ⟨f', hf', by omega, by omega⟩
  have hstart (f' : Nat) : batchSize * ((batchSize + f') / batchSize) =
      batchSize + batchSize * (f' / batchSize) := by
    rw [Nat.add_div_left _ (by decide), Nat.mul_succ, Nat.add_comm]
  have horder := h.toInOrder.behind fun hpolicy pending hmem =>
    Pending.unread_eq_false (hgood hpolicy pending hmem)
  rw [hnames, List.take_append_drop] at horder
  refine ⟨horder, ?_, ?_, ?_, ?_, ?_⟩
  · intro r hr
    show (results ++ log.results).map Prod.fst = results.map Prod.fst ++ log.names
    rw [List.map_append, h.answered r hr]
  · show ∀ r, outcome = .ok r → r = comesTo settings tally (results ++ log.results) ∨ _
    rw [comesTo_append hcomes]
    exact h.result
  · show outcome = .ok (comesTo settings tally (results ++ log.results)) → _
    rw [comesTo_append hcomes]
    intro houtcome hall
    show results.map Prod.fst ++ log.names = names
    rw [hnames, h.whole houtcome (hall.imp_right fun hall pending hmem =>
      hall pending (List.mem_append_right _ hmem)), List.take_append_drop]
  · intro hpolicy f hf
    obtain ⟨f', hf', rfl, hfull⟩ := hfirst hpolicy f hf
    have hwithin := h.within hpolicy f' hf'
    show (results.map Prod.fst ++ log.names).length ≤ _
    rw [List.length_append, List.length_map, hstart]
    omega
  · intro hpolicy r hr f hf
    obtain ⟨f', hf', rfl, hfull⟩ := hfirst hpolicy f hf
    have hdrop : (results ++ log.results).drop (batchSize + batchSize * (f' / batchSize)) =
        log.results.drop (batchSize * (f' / batchSize)) := by
      rw [← hfull, List.drop_length_add_append]
    show results.map Prod.fst ++ log.names = names.take (_ + ahead .failFast batchSize
      ((results ++ log.results).drop _))
    rw [hstart, hdrop, Nat.add_assoc, List.take_add, ← h.batch hpolicy r hr f' hf', hnames]

end

end Dump

/-! ## Runs with a log -/

section
variable {m : Type → Type} [Monad m] [MonadExceptOf Abort m] {own σ : Type} [RunsOver own σ m]
  {log : σ → ReadLog}

/-- A read puts the candidate's name on the log, and what comes of it once it has ended. -/
def Candidate.Logs (c : Candidate m) (log : σ → ReadLog) : Prop :=
  ∀ s : own × σ, Ends c.read.run s
    (fun r s' => log s'.2 = ((log s.2).ask c.name).answer (c.name, r))
    fun s' => log s' = (log s.2).ask c.name

/-- Writing leaves the log as it is. -/
def Sink.Spares (sink : Sink m) (log : σ → ReadLog) : Prop :=
  ∀ bytes (s : own × σ), Ends (sink.write bytes).run s (fun _ s' => log s'.2 = log s.2)
    fun s' => log s' = log s.2

namespace Sink

variable {sink : Sink m}

theorem Spares.writeAllWithin (h : sink.Spares log) (attempts : Nat) (bytes : Bytes)
    (s : own × σ) :
    Ends (sink.writeAllWithin attempts bytes).run s (fun _ s' => log s'.2 = log s.2)
      fun s' => log s' = log s.2 := by
  induction attempts generalizing bytes s with
  | zero => exact ends_run_pure.mpr rfl
  | succ attempts ih =>
    unfold Sink.writeAllWithin
    split
    · exact ends_run_pure.mpr rfl
    · refine ends_run_bind.mpr ((h bytes s).mono fun r s₁ hlog => ?_)
      cases r with
      | error fault => exact hlog
      | ok taken =>
        dsimp only
        split
        · exact ends_run_throw.mpr hlog
        · exact (ih _ s₁).imp (fun _ _ hlog' => hlog'.trans hlog) fun _ hlog' => hlog'.trans hlog

theorem Spares.writeParts (h : sink.Spares log) (parts : List Bytes) (s : own × σ) :
    Ends (sink.writeParts parts).run s (fun _ s' => log s'.2 = log s.2)
      fun s' => log s' = log s.2 := by
  induction parts generalizing s with
  | nil => exact ends_run_pure.mpr rfl
  | cons part parts ih =>
    refine ends_run_bind.mpr ((h.writeAllWithin _ part s).mono fun r s₁ hlog => ?_)
    cases r with
    | error fault => exact hlog
    | ok _ => exact (ih s₁).imp (fun _ _ hlog' => hlog'.trans hlog) fun _ hlog' => hlog'.trans hlog

end Sink

namespace Dump

variable {settings : Settings} {sink : Sink m} {tally : Tally} {candidates : List (Candidate m)}

theorem ends_readAhead_logged {policy : Policy} (h : ∀ c ∈ candidates, c.Logs log) (s : own × σ) :
    Ends (readAhead policy candidates) s
      (fun results s' => log s'.2 = (log s.2).append (.ofResults results) ∧
        ReadThrough policy (candidates.map Candidate.name) results)
      fun s' => ∃ new, log s' = (log s.2).append new ∧
        InOrder policy (candidates.map Candidate.name) new := by
  induction candidates generalizing s with
  | nil =>
    exact ends_pure.mpr ⟨(ReadLog.append_empty _).symm, fun _ _ => List.take_nil.symm, nofun⟩
  | cons c candidates ih =>
    obtain ⟨hc, hcandidates⟩ := List.forall_mem_cons.mp h
    rw [List.map_cons]
    refine ends_bind.mpr ((hc s).imp (fun result s₁ hlog => ?_) fun s' hlog => ?_)
    · rw [ReadLog.answer_ask (log s.2) (c.name, result)] at hlog
      have hon (hresult : policy = .failFast → Pending.unread (c.name, result) = false) :
          Ends (do return (c.name, result) :: (← readAhead policy candidates) : m (List Pending)) s₁
            (fun results s' => log s'.2 = (log s.2).append (.ofResults results) ∧
              ReadThrough policy (c.name :: candidates.map Candidate.name) results)
            fun s' => ∃ new, log s' = (log s.2).append new ∧
              InOrder policy (c.name :: candidates.map Candidate.name) new := by
        refine ends_bind.mpr ((ih hcandidates s₁).imp (fun results s' hr => ?_) fun s' hnew => ?_)
        · obtain ⟨hlog', hthrough⟩ := hr
          refine ends_pure.mpr ⟨?_, hthrough.cons hresult⟩
          rw [hlog', hlog, ReadLog.append_assoc]
          rfl
        · obtain ⟨new, hlog', hnew⟩ := hnew
          exact ⟨_, by rw [hlog', hlog, ReadLog.append_assoc], hnew.cons hresult⟩
      cases result with
      | ok bytes => exact hon fun _ => rfl
      | error failure =>
        cases policy with
        | failFast => exact ends_pure.mpr ⟨hlog, readThrough_failure _ _ _⟩
        | skipAndContinue => exact hon nofun
    · refine ⟨⟨[c.name], []⟩, by rw [hlog]; simp [ReadLog.ask, ReadLog.append], ?_, ?_, nofun⟩
      · exact List.cons_prefix_cons.mpr ⟨rfl, List.nil_prefix⟩
      · exact List.nil_prefix

theorem ends_writeLines_sparing [LawfulMonad m] (h : sink.Spares log) (symbols : List Symbol)
    (s : own × σ) :
    Ends (writeLines settings sink symbols).run s
      (fun r s' => log s'.2 = log s.2 ∧ ∀ failure, r = .error failure →
        ∃ fault, failure = .unwritable settings.output fault)
      fun s' => log s' = log s.2 := by
  refine ends_run_adapt.mpr ((h.writeParts _ s).mono fun r s' hlog => ⟨hlog, ?_⟩)
  rintro failure hr
  cases r with
  | error fault => exact ⟨fault, (Except.error.inj hr).symm⟩
  | ok _ => cases hr

theorem ends_writeBatch_logged [LawfulMonad m] (hsink : sink.Spares log)
    (h : ∀ c ∈ candidates, c.Logs log) (s : own × σ) :
    Ends (writeBatch settings sink tally candidates).run s
      (fun r s' => ∃ results, log s'.2 = (log s.2).append (.ofResults results) ∧
        ReadThrough settings.policy (candidates.map Candidate.name) results ∧
        (r = comesTo settings tally results ∨
          ∃ fault, r = .error (.unwritable settings.output fault)))
      fun s' => ∃ new, log s' = (log s.2).append new ∧
        InOrder settings.policy (candidates.map Candidate.name) new := by
  refine ends_run_bind.mpr (ends_run_lift.mpr ((ends_readAhead_logged h s).mono ?_))
  rintro results s₁ ⟨hlog, hthrough⟩
  dsimp only
  rw [foldlM_handle]
  refine ends_run_bind.mpr ((ends_writeLines_sparing hsink _ s₁).imp ?_ ?_)
  · rintro r s₂ ⟨hspared, hfault⟩
    cases r with
    | error failure =>
      obtain ⟨fault, rfl⟩ := hfault failure rfl
      exact ⟨results, hspared.trans hlog, hthrough, .inr ⟨fault, rfl⟩⟩
    | ok _ => exact ends_pure.mpr ⟨results, hspared.trans hlog, hthrough, .inl rfl⟩
  · intro s₂ hspared
    exact ⟨.ofResults results, hspared.trans hlog, hthrough.inOrder⟩

theorem ends_writeBatches_logged [LawfulMonad m] (hsink : sink.Spares log) {steps : Nat}
    (h : ∀ c ∈ candidates, c.Logs log) (hsteps : candidates.length ≤ steps) (s : own × σ) :
    Ends ((chunksWithin batchSize steps candidates).foldlM (writeBatch settings sink) tally).run s
      (fun r s' => ∃ new, log s'.2 = (log s.2).append new ∧
        InBatches settings tally (candidates.map Candidate.name) new (.ok r))
      fun s' => ∃ new, log s' = (log s.2).append new ∧
        ∀ abort, InBatches settings tally (candidates.map Candidate.name) new (.error abort) := by
  induction steps generalizing candidates tally s with
  | zero =>
    cases List.eq_nil_of_length_eq_zero (Nat.le_zero.mp hsteps)
    exact ends_run_pure.mpr ⟨.empty, (ReadLog.append_empty _).symm, inBatches_nil settings tally⟩
  | succ steps ih =>
    unfold chunksWithin
    split
    · rename_i hempty
      rw [List.isEmpty_iff.mp hempty]
      exact ends_run_pure.mpr ⟨.empty, (ReadLog.append_empty _).symm, inBatches_nil settings tally⟩
    · have hrest : (candidates.drop batchSize).length ≤ steps := by
        have hbatch : 0 < batchSize := by decide
        rw [List.length_drop]
        omega
      rw [List.foldlM_cons]
      refine ends_run_bind.mpr ((ends_writeBatch_logged hsink
        (fun c hc => h c (List.mem_of_mem_take hc)) s).imp ?_ ?_)
      · rintro r s₁ ⟨results, hlog, hthrough, hresult⟩
        rw [List.map_take] at hthrough
        cases r with
        | error failure => exact ⟨_, hlog, inBatches_of_error hthrough hresult⟩
        | ok tally' =>
          have hcomes : comesTo settings tally results = .ok tally' := by
            rcases hresult with hresult | ⟨fault, hfault⟩
            · exact hresult.symm
            · cases hfault
          have hbehind {new : ReadLog} {outcome : Except Abort (Except Failure Tally)}
              (hnew : InBatches settings tally' ((candidates.drop batchSize).map Candidate.name)
                new outcome) :
              InBatches settings tally (candidates.map Candidate.name)
                ((ReadLog.ofResults results).append new) outcome := by
            rw [List.map_drop] at hnew
            exact hnew.behind hthrough hcomes
          refine (ih (fun c hc => h c (List.mem_of_mem_drop hc)) hrest s₁).imp ?_ ?_
          · rintro r s₂ ⟨new, hlog', hnew⟩
            exact ⟨_, by rw [hlog', hlog, ReadLog.append_assoc], hbehind hnew⟩
          · rintro s₂ ⟨new, hlog', hnew⟩
            exact ⟨_, by rw [hlog', hlog, ReadLog.append_assoc], fun abort => hbehind (hnew abort)⟩
      · rintro s₁ ⟨new, hlog, hnew⟩
        rw [List.map_take] at hnew
        exact ⟨new, hlog, inBatches_of_abort hnew⟩

theorem ends_writeEntries_logged [LawfulMonad m] (hsink : sink.Spares log)
    (h : ∀ c ∈ candidates, c.Logs log) {s : own × σ} (hs : log s.2 = .empty) :
    Ends (writeEntries settings sink candidates).run s
      (fun r s' => InBatches settings Tally.zero (candidates.map Candidate.name) (log s'.2) (.ok r))
      fun s' => ∀ abort, InBatches settings Tally.zero (candidates.map Candidate.name) (log s')
        (.error abort) := by
  refine (ends_writeBatches_logged hsink h (Nat.le_refl _) s).imp ?_ ?_
  · rintro r s' ⟨new, hlog, hnew⟩
    rwa [hlog, hs, ReadLog.empty_append]
  · rintro s' ⟨new, hlog, hnew⟩
    rwa [hlog, hs, ReadLog.empty_append]

end Dump

end

/-! ## Candidates that are logged -/

variable {σ τ α : Type}

theorem ends_keeping {x : Run σ α} {t : τ} {s : σ} {Q : α → Unit × τ × σ → Prop}
    {E : τ × σ → Prop} :
    Ends (Run.keeping x : Run (τ × σ) α) ((), t, s) Q E ↔
      Ends x ((), s) (fun a s' => Q a ((), t, s'.2)) fun s' => E (t, s') := by
  have hkeeping : (Run.keeping x : Run (τ × σ) α).on (t, s) = ((x.on s).1, t, (x.on s).2) := rfl
  rw [Ends, Ends, Run.exec_eq, Run.exec_eq, hkeeping]
  rcases x.on s with ⟨_ | a, s'⟩ <;> rfl

theorem ends_run_modify {f : σ → σ} {s : σ} {Q : PUnit → Unit × σ → Prop} {E : σ → Prop} :
    Ends (modify f : Run σ PUnit) ((), s) Q E ↔ Q ⟨⟩ ((), f s) := Iff.rfl

theorem Candidate.logs_logged (c : Candidate (Run σ)) : c.logged.Logs Prod.fst := by
  rintro ⟨-, log, s⟩
  refine ends_bind.mpr (ends_run_modify.mpr (ends_bind.mpr (ends_keeping.mpr ?_)))
  refine (ends_anyhow c.read.run ((), s)).imp (fun result s' _ => ?_) fun _ _ => rfl
  exact ends_bind.mpr (ends_run_modify.mpr (ends_pure.mpr rfl))

theorem Sink.spares_keeping (sink : Sink (Run σ)) :
    (sink.keeping : Sink (Run (ReadLog × σ))).Spares Prod.fst := by
  rintro bytes ⟨-, log, s⟩
  exact ends_keeping.mpr ((ends_anyhow _ ((), s)).imp (fun _ _ _ => rfl) fun _ _ => rfl)

namespace Dump

/-- Candidates are read in their order, at most one batch ahead of what is handled. The log tells
it, and without the log the run is the one that it was. -/
theorem reads_in_batches (settings : Settings) (sink : Sink (Run σ))
    (candidates : List (Candidate (Run σ))) (start : σ) :
    let plain := Run.on start (writeEntries settings sink candidates).run
    let logged := Run.on (.empty, start)
      (writeEntries settings sink.keeping (candidates.map Candidate.logged)).run
    logged.1 = plain.1 ∧ logged.2.2 = plain.2 ∧
      InBatches settings Tally.zero (candidates.map Candidate.name) logged.2.1 logged.1 := by
  intro plain logged
  obtain ⟨log, hforgets⟩ := forgets_writeEntries settings sink candidates .empty start
  have hlogs : ∀ c ∈ candidates.map Candidate.logged, c.Logs Prod.fst := by
    rintro _ hc
    obtain ⟨c, -, rfl⟩ := List.mem_map.mp hc
    exact c.logs_logged
  refine ⟨congrArg Prod.fst hforgets, congrArg (·.2.2) hforgets, ?_⟩
  have hnames : (candidates.map Candidate.logged).map Candidate.name =
      candidates.map Candidate.name := List.map_map
  rw [← hnames]
  exact Run.of_ends (P := fun outcome (s' : ReadLog × σ) => InBatches settings Tally.zero _ s'.1
    outcome) (ends_writeEntries_logged sink.spares_keeping hlogs rfl)

-- A file that cannot be parsed ends the run only after the next one was read.
example :
    let lost : Failure := .unreadable "lost" (.other "gone")
    let source : MemorySource := ⟨[⟨"bad", .ok []⟩, ⟨"lost", .error lost⟩, ⟨"left", .ok []⟩], none⟩
    let settings : Settings := ⟨⟨[]⟩, ⟨[]⟩, .all, .text, .failFast, true⟩
    let sink : Sink (Run Unit) := ⟨fun bytes => pure bytes.length, pure ()⟩
    let candidates := (source.candidates ["bad", "lost", "left"]).map Candidate.logged
    (Run.on (.empty, ()) (writeEntries settings sink.keeping candidates).run).2.1.names =
      ["bad", "lost"] := rfl

end Dump

end JvmSymbols
