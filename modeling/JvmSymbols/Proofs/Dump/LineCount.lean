import JvmSymbols.Proofs.Dump.Counting
import JvmSymbols.Proofs.Dump.Stages
import JvmSymbols.Proofs.Symbol.TextLines
import JvmSymbols.Proofs.Text.Utf8Inverse

/-!
# Lines of plain reports

A plain report has as many newlines as symbols were counted, and those in the names of the symbols
on top (`plain_report_lines`). Since names are not escaped, only reports without the latter have one
line for each symbol.
-/

namespace JvmSymbols

open ClassFile (Descriptor)
open CarriesTree (tree)

namespace Dump

/-! ## Counts -/

/-- The number of symbols that were counted. -/
def Tally.total (tally : Tally) : Nat := tally.classes + tally.methods + tally.fields

theorem Tally.total_record (tally : Tally) (symbols : List Symbol) :
    (tally.record symbols).total = tally.total + symbols.length := by
  induction symbols generalizing tally with
  | nil => rfl
  | cons s symbols ih =>
    have hcount : (tally.count s).total = tally.total + 1 := by
      cases s <;> simp only [count, total] <;> omega
    refine (ih (tally.count s)).trans ?_
    rw [hcount, List.length_cons]
    omega

theorem total_of_foldlM_step {policy : Policy} {results : List Parsed} {tally tally' : Tally}
    (h : results.foldlM (Tally.step policy) tally = .ok tally') :
    tally'.total = tally.total + (kept results).length := by
  induction results generalizing tally with
  | nil =>
    cases h
    rfl
  | cons result results ih =>
    rw [kept, List.flatMap_cons, List.length_append]
    cases result with
    | ok symbols =>
      refine (ih h).trans ?_
      rw [Tally.total_record, Nat.add_assoc]
      rfl
    | error failure =>
      cases policy with
      | failFast => cases h
      | skipAndContinue => exact (ih h).trans (congrArg _ (Nat.zero_add _).symm)

/-- The symbols of a report are those of class files. -/
theorem exists_kept_parse (pending : List Pending) :
    ∃ classes : List Descriptor, (∀ d ∈ classes, ∃ bytes, Descriptor.ofBytes bytes = .ok d) ∧
      kept (pending.map Pending.parse) = classes.flatMap Symbol.ofDescriptor := by
  induction pending with
  | nil => exact ⟨[], nofun, rfl⟩
  | cons p pending ih =>
    obtain ⟨classes, hclasses, hkept⟩ := ih
    rw [List.map_cons, kept, List.flatMap_cons]
    rw [kept] at hkept
    rcases parse_cases (fun _ => p.2) p.1 with ⟨d, hd, hparse⟩ | ⟨-, failure, hparse⟩
    · have hbytes : ∃ bytes, Descriptor.ofBytes bytes = .ok d := by
        obtain ⟨bytes, -, hd⟩ := Option.bind_eq_some_iff.mp hd
        rcases hparsed : Descriptor.ofBytes bytes with fault | d'
        · rw [hparsed] at hd
          cases hd
        · rw [hparsed] at hd
          cases hd
          exact ⟨bytes, hparsed⟩
      refine ⟨d :: classes, List.forall_mem_cons.mpr ⟨hbytes, hclasses⟩, ?_⟩
      rw [List.flatMap_cons, hkept, show p.parse = .ok (Symbol.ofDescriptor d) from hparse]
      rfl
    · refine ⟨classes, hclasses, ?_⟩
      rw [hkept, show p.parse = .error failure from hparse]
      rfl

/-! ## Reports -/

/-- The report was written to the temporary file, and that was moved to the output. -/
def Moved (output : Path) (report : Bytes) (before after : FileTree) : Prop :=
  ∃ parents opened filled here, FileTree.Made output.above before parents ∧
    parents.create (temporary output) = .ok (here, opened) ∧
    FileTree.Appended here report opened filled ∧
    filled.rename (temporary output) output = .ok after

/-- The report holds the plain lines of class files, and the summary tells how many they are. -/
def PlainlyReported (output : Path) (before after : FileTree) (summary : Summary) : Prop :=
  ∃ (classes : List Descriptor) (report : Bytes),
    (∀ d ∈ classes, ∃ bytes, Descriptor.ofBytes bytes = .ok d) ∧
    Moved output report before after ∧
    summary.reportSha256 = Sha256.hexHash report ∧
    let symbols := classes.flatMap Symbol.ofDescriptor
    report = Utf8.encode (Symbol.render symbols .text) ∧
    symbols.length = summary.classes + summary.methods + summary.fields ∧
    report.count 10 =
      summary.classes + summary.methods + summary.fields + Symbol.totalBreaks symbols ∧
    (report.count 10 = summary.classes + summary.methods + summary.fields ↔
      ∀ s ∈ symbols, s.OneLine)

variable {m : Type → Type} [Monad m] [LawfulMonad m] [MonadExceptOf Archive.Abort m] {own σ : Type}
  [RunsOver own σ m] [FileSystem m] [CarriesTree own σ m]
  {settings : Settings} {Gives : String → Except Failure Bytes → Prop}
  {candidates : List (Candidate m)} {before after : FileTree} {summary : Summary}

omit [Monad m] [LawfulMonad m] [MonadExceptOf Archive.Abort m] [FileSystem m] in
theorem Finished.plainly (htext : settings.format = .text)
    (h : Finished settings Gives candidates before after summary) :
    PlainlyReported settings.output before after summary := by
  obtain @⟨parents, opened, filled, here, report, pending, tally, hmade, hcreate, -, hfold,
    hreport, hheld, hrename⟩ := h
  obtain ⟨classes, hclasses, hkept⟩ := exists_kept_parse pending
  have htotal := total_of_foldlM_step hfold
  rw [hkept] at htotal
  rw [htext, hkept] at hreport
  have hlength : (classes.flatMap Symbol.ofDescriptor).length =
      tally.classes + tally.methods + tally.fields := (htotal.trans (Nat.zero_add _)).symm
  have hcount : report.count 10 = tally.classes + tally.methods + tally.fields +
      Symbol.totalBreaks (classes.flatMap Symbol.ofDescriptor) := by
    rw [hreport, ← hlength, ← Symbol.count_render_text]
    exact Utf8.count_encode (d := '\n') (by decide) _
  refine ⟨classes, report, hclasses,
    ⟨parents, opened, filled, here, hmade, hcreate, hheld, hrename⟩, rfl, hreport, hlength, hcount, ?_⟩
  rw [hcount, ← Symbol.totalBreaks_eq_zero]
  exact Nat.add_eq_left

theorem plainly_of_dumpSource {s s' : own × σ} {listing : ExceptT Failure m (List (Candidate m))}
    (htext : settings.format = .text)
    (hlisting : Lists listing s fun candidates => ∀ c ∈ candidates, Quiet Anything c)
    (h : EndsWith (dumpSource settings listing).run s (.ok summary) s') :
    PlainlyReported settings.output (tree m s.2) (tree m s'.2) summary := by
  have hlists : Lists listing s fun candidates => True ∧ ∀ c ∈ candidates, Quiet Anything c :=
    hlisting.mono fun _ _ hr => ⟨hr.1, fun candidates h => ⟨trivial, hr.2 candidates h⟩⟩
  obtain ⟨candidates, -, hfinished⟩ := (ends_dumpSource hlists).of_endsWith h
  exact hfinished.plainly htext

theorem ends_dump_plainly (htext : settings.format = .text) (s : own × σ) :
    Ends (dump settings : ExceptT Failure m _).run s
      (fun r s' => ∀ summary, r = .ok summary →
        PlainlyReported settings.output (tree m s.2) (tree m s'.2) summary) fun _ => True := by
  rw [dump_eq]
  refine ends_run_bind.mpr (ends_run_lift.mpr ?_)
  refine (CarriesTree.milliseconds s).of_false fun start s₁ hs₁ => ?_
  rw [← hs₁]
  have hlists : Lists (listRoot settings : ExceptT Failure m _) s₁
      fun candidates => True ∧ ∀ c ∈ candidates, Quiet Anything c :=
    (lists_listRoot settings s₁).mono fun _ _ hr =>
      ⟨hr.1, fun candidates h => ⟨trivial, hr.2 candidates h⟩⟩
  refine ends_run_bind.mpr ((ends_dumpSource hlists).imp (fun r s₂ hr => ?_) fun _ _ => trivial)
  cases r with
  | error failure => exact nofun
  | ok summary =>
    obtain ⟨candidates, -, hfinished⟩ := hr
    refine ends_run_bind.mpr (ends_run_lift.mpr ?_)
    refine (CarriesTree.milliseconds s₂).of_false fun stop s₃ hs₃ => ends_run_pure.mpr ?_
    intro _ hsummary
    cases hsummary
    rw [hs₃]
    have hplainly := hfinished.plainly htext
    exact hplainly

/-- The plain lines of an accepted class file have a newline each and those in the names on top, and
so have the reports of all dumps. Where no name has a newline, each symbol has a line of its own. -/
theorem plain_report_lines :
    (∀ bytes d, Descriptor.ofBytes bytes = .ok d →
      let symbols := Symbol.ofDescriptor d
      let text := (Symbol.render symbols .text).toList
      text.count '\n' = symbols.length + Symbol.totalBreaks symbols ∧
      (text.count '\n' = symbols.length ↔ ∀ s ∈ symbols, s.OneLine) ∧
      ((∀ s ∈ symbols, s.OneLine) →
        text.splitOn '\n' = symbols.map (·.plain.toList) ++ [[]])) ∧
    ∀ (settings : Settings) (s s' : own × σ) (summary : Summary), settings.format = .text →
      (EndsWith (dump settings : ExceptT Failure m _).run s (.ok summary) s' →
        PlainlyReported settings.output (tree m s.2) (tree m s'.2) summary) ∧
      ∀ listing : ExceptT Failure m (List (Candidate m)),
        Lists listing s (fun candidates => ∀ c ∈ candidates, Quiet Anything c) →
        EndsWith (dumpSource settings listing).run s (.ok summary) s' →
        PlainlyReported settings.output (tree m s.2) (tree m s'.2) summary := by
  refine ⟨fun bytes d _ => ⟨Symbol.count_render_text _, ?_, Symbol.splitOn_render_text⟩,
    fun settings s s' summary htext => ⟨fun h => ?_, fun listing hlisting h => ?_⟩⟩
  · rw [Symbol.count_render_text, ← Symbol.totalBreaks_eq_zero]
    exact Nat.add_eq_left
  · exact (ends_dump_plainly htext s).of_endsWith h summary rfl
  · exact plainly_of_dumpSource htext hlisting h

/-- A class `a` with a field and a method. -/
def memberClass : Bytes :=
  [0xCA, 0xFE, 0xBA, 0xBE, 0, 0, 0, 61, 0, 7, 1, 0, 1, 97, 7, 0, 1, 1, 0, 1, 102, 1, 0, 1, 73,
    1, 0, 1, 109, 1, 0, 3, 40, 41, 86, 0, 33, 0, 2, 0, 0, 0, 0, 0, 1, 0, 0, 0, 3, 0, 4, 0, 0,
    0, 1, 0, 0, 0, 5, 0, 6, 0, 0, 0, 0]

def memberDescriptor : Descriptor := ⟨"a", ⟨61, 0⟩, [⟨"m", "()V"⟩], [⟨"f", "I"⟩]⟩

/-- A directory with one class file. -/
def memberTree : FileTree :=
  (FileTree.initial.set [FileTree.name "work", FileTree.name "root"] .directory).set
    [FileTree.name "work", FileTree.name "root", FileTree.name "a.class"] (.file memberClass)

/-- A class whose name has a newline in it. -/
def brokenClass : Bytes :=
  [0xCA, 0xFE, 0xBA, 0xBE, 0, 0, 0, 61, 0, 3, 1, 0, 3, 97, 10, 98, 7, 0, 1, 0, 33, 0, 2, 0, 0, 0, 0,
    0, 0, 0, 0, 0, 0]

/-- What the two classes are read as, and how many symbols the dump of the first one counts. -/
theorem read_memberClass_brokenClass :
    Descriptor.ofBytes memberClass = .ok memberDescriptor ∧
      Descriptor.ofBytes brokenClass = .ok ⟨"a\nb", ⟨61, 0⟩, [], []⟩ ∧
      (Run.value? memberTree
        (dump ⟨.ofString "root", .ofString "out", .all, .text, .failFast, false⟩)).any
          (fun summary => summary.classes + summary.methods + summary.fields == 3) = true := by
  decide +kernel

theorem three_lines_for_three_symbols :
    let settings : Settings := ⟨.ofString "root", .ofString "out", .all, .text, .failFast, false⟩
    let run : World (Except Failure Summary) := (dump settings).run
    (Descriptor.ofBytes memberClass = .ok memberDescriptor ∧
      (∀ s ∈ Symbol.ofDescriptor memberDescriptor, s.OneLine) ∧
      (Symbol.render (Symbol.ofDescriptor memberDescriptor) .text).toList.splitOn '\n' =
        ["class: a".toList, "method: a.m()V".toList, "field: a.f:I".toList, []]) ∧
    ∃ summary after, EndsWith run ((), memberTree) (.ok summary) ((), after) ∧
      summary.classes + summary.methods + summary.fields = 3 ∧
      PlainlyReported (.ofString "out") memberTree after summary := by
  intro settings run
  obtain ⟨hlines, hdumps⟩ := plain_report_lines (m := World)
  obtain ⟨hd, -, hany⟩ := read_memberClass_brokenClass
  refine ⟨?_, ?_⟩
  · have hone : ∀ s ∈ Symbol.ofDescriptor memberDescriptor, s.OneLine := by
      unfold Symbol.OneLine
      decide
    have hplain : (Symbol.ofDescriptor memberDescriptor).map (·.plain.toList) ++ [[]] =
        ["class: a".toList, "method: a.m()V".toList, "field: a.f:I".toList, []] := by
      decide
    have hsplit := (hlines memberClass _ hd).2.2 hone
    exact ⟨hd, hone, hsplit.trans hplain⟩
  · obtain ⟨summary, hcounts, hends⟩ := Run.exists_endsWith_of_any hany
    generalize (Run.on memberTree run).2 = after at hends
    exact ⟨summary, after, hends, beq_iff_eq.mp hcounts, (hdumps settings _ _ summary rfl).1 hends⟩

/-! ## Names with newlines -/

theorem two_lines_for_one_symbol :
    Descriptor.ofBytes brokenClass = .ok ⟨"a\nb", ⟨61, 0⟩, [], []⟩ ∧
      Symbol.ofDescriptor ⟨"a\nb", ⟨61, 0⟩, [], []⟩ = [.classDecl "a\nb"] ∧
      (Symbol.render [.classDecl "a\nb"] .text).toList.count '\n' = 2 ∧
      (Symbol.render [.classDecl "a\nb"] .text).toList.splitOn '\n' =
        ["class: a".toList, "b".toList, []] := by
  exact ⟨read_memberClass_brokenClass.2.1, rfl, by decide, by decide⟩

end Dump

end JvmSymbols
