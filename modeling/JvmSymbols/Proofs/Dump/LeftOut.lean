import JvmSymbols.Proofs.Dump.Batches
import JvmSymbols.Proofs.Dump.Counting
import JvmSymbols.Proofs.Twins

/-!
# Candidates that are left out

A run that ends at the first failure and one that leaves failures out are told apart by what comes
of the candidates alone: they write the same lines for the candidates that do not fail
(`sameLines_others`), and behind a failure the former writes no more (`cutShort_of_obstacles`).
-/

namespace JvmSymbols.Dump

variable {m : Type → Type} {content : String → Except Failure Bytes}
  {candidates candidates' : List (Candidate m)} {policy policy' : Policy}
  {V : Tally → Tally → Prop} {failure : Failure}

/-! ## The lines and counts of a run that leaves failures out -/

/-- Why a candidate is left out, if it is. -/
def obstacle? (content : String → Except Failure Bytes) (c : Candidate m) : Option Failure :=
  match parsed content c with
  | .ok _ => none
  | .error failure => some failure

/-- The candidates that are not left out. -/
def others (content : String → Except Failure Bytes) (candidates : List (Candidate m)) :
    List (Candidate m) :=
  candidates.filter fun c => (obstacle? content c).isNone

/-- How a failure is listed. -/
def Failure.entry (failure : Failure) : FailedEntry := ⟨failure.subject, failure.message⟩

/-- The failures among the results. -/
def failures (results : List Parsed) : List Failure :=
  results.filterMap fun
    | .ok _ => none
    | .error failure => some failure

/-- The results that are no failures. -/
def lines (results : List Parsed) : List (List Symbol) := results.filterMap Except.toOption

theorem flatten_lines (results : List Parsed) : (lines results).flatten = kept results := by
  induction results with
  | nil => rfl
  | cons result results ih =>
    rw [kept, List.flatMap_cons, ← kept, ← ih]
    cases result <;> rfl

theorem failed_record (tally : Tally) (symbols : List Symbol) :
    (tally.record symbols).failed = tally.failed := by
  induction symbols generalizing tally with
  | nil => rfl
  | cons symbol symbols ih =>
    refine (ih (tally.count symbol)).trans ?_
    cases symbol <;> rfl

theorem record_setFailed (tally : Tally) (failed : List FailedEntry) (symbols : List Symbol) :
    ({ tally with failed } : Tally).record symbols = { tally.record symbols with failed } := by
  induction symbols generalizing tally with
  | nil => rfl
  | cons symbol symbols ih =>
    refine Eq.trans ?_ (ih (tally.count symbol))
    cases symbol <;> rfl

theorem foldlM_step_skip (tally : Tally) (results : List Parsed) :
    results.foldlM (Tally.step .skipAndContinue) tally =
      .ok { tally.record (kept results) with
        failed := tally.failed ++ (failures results).map Failure.entry } := by
  induction results generalizing tally with
  | nil =>
    rw [failures, List.filterMap_nil, List.map_nil, List.append_nil]
    rfl
  | cons result results ih =>
    rw [List.foldlM_cons, kept, List.flatMap_cons, Tally.record_append, ← kept]
    cases result with
    | ok symbols =>
      refine (ih (tally.record symbols)).trans ?_
      rw [failed_record]
      rfl
    | error failure =>
      refine (ih { tally with failed := tally.failed ++ [failure.entry] }).trans ?_
      rw [record_setFailed, List.append_assoc]
      rfl

theorem written_skip (results : List Parsed) :
    written .skipAndContinue results = kept results :=
  written_eq_kept (foldlM_step_skip Tally.zero results)

theorem written_ok (policy : Policy) (lines : List (List Symbol)) :
    written policy (lines.map Except.ok) = lines.flatten := by
  induction lines with
  | nil => rfl
  | cons symbols lines ih => rw [List.map_cons, written, ih, List.flatten_cons]

theorem foldlM_step_ok (policy : Policy) (tally : Tally) (lines : List (List Symbol)) :
    (lines.map Except.ok).foldlM (Tally.step policy) tally = .ok (tally.record lines.flatten) := by
  induction lines generalizing tally with
  | nil => rfl
  | cons symbols lines ih =>
    rw [List.flatten_cons, Tally.record_append]
    exact ih (tally.record symbols)

/-- The first failure stands behind results that are none. -/
theorem exists_first_failure {results : List Parsed} {failure : Failure} {rest : List Failure}
    (h : failures results = failure :: rest) :
    ∃ (front : List (List Symbol)) (back : List Parsed),
      results = front.map .ok ++ .error failure :: back := by
  induction results with
  | nil => exact nomatch h
  | cons result results ih =>
    cases result with
    | ok symbols =>
      obtain ⟨front, back, hback⟩ := ih h
      exact ⟨symbols :: front, back, congrArg (Except.ok symbols :: ·) hback⟩
    | error first =>
      cases List.cons.inj h |>.1
      exact ⟨[], results, rfl⟩

theorem failures_map_parsed :
    failures (candidates.map (parsed content)) = candidates.filterMap (obstacle? content) := by
  rw [failures, List.filterMap_map]
  rfl

/-- The candidates that are not left out have the lines of all. -/
theorem map_parsed_others :
    (others content candidates).map (parsed content) =
      (lines (candidates.map (parsed content))).map .ok := by
  induction candidates with
  | nil => rfl
  | cons c candidates ih =>
    rcases hparsed : parsed content c with failure | symbols
    · have hnone : (obstacle? content c).isNone = false := by
        rw [obstacle?, hparsed]
        rfl
      rw [others, List.filter_cons, if_neg (by simp [hnone]), ← others, ih, List.map_cons, hparsed]
      rfl
    · have hnone : (obstacle? content c).isNone = true := by
        rw [obstacle?, hparsed]
        rfl
      rw [others, List.filter_cons, if_pos hnone, ← others, List.map_cons, ih, List.map_cons, hparsed]
      rfl

/-- What a run writes that ends at the first failure is the first part of what one writes that leaves
failures out. -/
theorem written_failFast_isPrefix (results : List Parsed) :
    List.IsPrefix (written .failFast results) (written .skipAndContinue results) := by
  induction results with
  | nil => exact List.nil_prefix
  | cons result results ih =>
    cases result with
    | ok symbols => exact (List.prefix_append_right_inj symbols).mpr ih
    | error failure => exact List.nil_prefix

/-! ## What is read of the candidates -/

/-- What was read of the candidates comes to what all of them come to: what is left unread stands
behind a failure that ends the run. -/
structure ReadOut (policy : Policy) (content : String → Except Failure Bytes)
    (candidates : List (Candidate m)) (pending : List Pending) : Prop where
  written : written policy (pending.map Pending.parse) =
    written policy (candidates.map (parsed content))
  fold (tally : Tally) : (pending.map Pending.parse).foldlM (Tally.step policy) tally =
    (candidates.map (parsed content)).foldlM (Tally.step policy) tally

theorem ReadOut.cons {policy : Policy} {c : Candidate m} {pending : List Pending}
    (h : ReadOut policy content candidates pending) :
    ReadOut policy content (c :: candidates) ((c.name, content c.name) :: pending) where
  written := by
    have hparse : Pending.parse (c.name, content c.name) = parsed content c := rfl
    have hcons := written_cons policy Tally.zero (parsed content c)
    rw [List.map_cons, List.map_cons, hparse, hcons (pending.map Pending.parse),
      hcons (candidates.map (parsed content)), h.written]
  fold tally := by
    have hparse : Pending.parse (c.name, content c.name) = parsed content c := rfl
    rw [List.map_cons, List.map_cons, List.foldlM_cons, List.foldlM_cons, hparse]
    congr 1
    funext tally'
    exact h.fold tally'

theorem readOut_of_failure {c : Candidate m} {failure : Failure}
    (h : content c.name = .error failure) :
    ReadOut .failFast content (c :: candidates) [(c.name, content c.name)] := by
  have hparsed : parsed content c = .error failure := by
    rw [parsed, h]
    rfl
  have hparse : Pending.parse (c.name, content c.name) = .error failure := hparsed
  constructor
  · rw [List.map_cons, List.map_cons, hparse, hparsed]
    rfl
  · intro tally
    rw [List.map_cons, List.map_cons, hparse, hparsed]
    rfl

/-! ## Two runs -/

/-- Both runs write the same lines, and they end with failures or with tallies as `V` says. -/
structure SameLines (content : String → Except Failure Bytes) (policy policy' : Policy)
    (candidates candidates' : List (Candidate m)) (V : Tally → Tally → Prop) : Prop where
  written : written policy (candidates.map (parsed content)) =
    written policy' (candidates'.map (parsed content))
  fold : Twins V ((candidates.map (parsed content)).foldlM (Tally.step policy) Tally.zero)
    ((candidates'.map (parsed content)).foldlM (Tally.step policy') Tally.zero)

/-- The second run ends with `failure` once it has written the first lines of the other. -/
structure CutShort (content : String → Except Failure Bytes) (policy policy' : Policy)
    (candidates candidates' : List (Candidate m)) (failure : Failure) : Prop where
  written : written policy' (candidates'.map (parsed content)) <+:
    written policy (candidates.map (parsed content))
  fold : (candidates'.map (parsed content)).foldlM (Tally.step policy') Tally.zero = .error failure

theorem sameLines_others :
    SameLines content .skipAndContinue .failFast candidates (others content candidates)
      fun tally tally' =>
        tally.failed = (candidates.filterMap (obstacle? content)).map Failure.entry ∧
          tally' = { tally with failed := [] } := by
  have hothers : (others content candidates).map (parsed content) =
      (lines (candidates.map (parsed content))).map .ok := map_parsed_others
  constructor
  · rw [hothers, written_skip, written_ok, flatten_lines]
  · rw [hothers, foldlM_step_skip, foldlM_step_ok, flatten_lines, failures_map_parsed]
    have hnone : (Tally.zero.record (kept (candidates.map (parsed content)))).failed = [] :=
      failed_record Tally.zero _
    refine ⟨rfl, ?_⟩
    rw [← hnone]

theorem cutShort_of_obstacles {failure : Failure} {rest : List Failure}
    (h : candidates.filterMap (obstacle? content) = failure :: rest) :
    CutShort content .skipAndContinue .failFast candidates candidates failure where
  written := written_failFast_isPrefix _
  fold := by
    rw [← failures_map_parsed] at h
    obtain ⟨front, back, hresults⟩ := exists_first_failure h
    rw [hresults, foldlM_step_failFast]

theorem others_eq_self (h : candidates.filterMap (obstacle? content) = []) :
    others content candidates = candidates := by
  rw [others, List.filter_eq_self]
  intro c hc
  rw [List.filterMap_eq_nil_iff.mp h c hc]
  rfl

end JvmSymbols.Dump
