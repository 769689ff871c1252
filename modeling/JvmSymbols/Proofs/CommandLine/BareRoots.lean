import JvmSymbols.Proofs.CommandLine.ImplicitDump

/-!
# Command lines that only name a root

The long form of a command line names `dump` before its root, and the short form leaves it out. The
two mean the same for every root that does not begin with a dash. For the root `-`, which is no
option, and for a root behind `--` the short form is refused (`invocationFrom_dash`,
`invocationFrom_escaped_subcommand`).
-/

namespace JvmSymbols

/-- The request that names a root and nothing else. -/
def DumpRequest.ofRoot (root : String) : DumpRequest where
  root := .ofString root
  output := none
  prefixes := []
  all := false
  format := .text
  keepGoing := false
  parallel := false

namespace CommandLine

variable {options : List LogOption} {root word : String} {words : List String} {s t outer : Scan}
  {invocation : Invocation}

/-! ## The long form -/

theorem ofString_eq_plain_iff :
    Word.ofString word = .plain ↔ startsWithDash word = false ∨ word = "-" := by
  have hdash : word = "-" ↔ word.toList = ['-'] := String.toList_inj.symm
  rw [hdash, Word.ofString, startsWithDash]
  generalize word.toList = chars
  rcases chars with _ | ⟨c, _ | ⟨d, chars⟩⟩
  · simp [Word.ofChars]
  · by_cases h : c = '-' <;> simp [Word.ofChars, h]
  by_cases h : c = '-'
  · subst h
    unfold Word.ofChars
    split <;> simp_all
  · have hplain : Word.ofChars (c :: d :: chars) = .plain := by
      unfold Word.ofChars
      split <;> simp_all
    simp [hplain, h]

theorem give_operand {escaped : Bool} (h : root ≠ "") :
    (⟨[], none, true, escaped⟩ : Scan).give .operand root =
      .ok ⟨[(.operand, root)], none, true, escaped⟩ := by
  have haccepts : Target.operand.accepts root = true := decide_eq_true h
  rw [Scan.give, haccepts]
  rfl

theorem invocation_escaped_root (h : root ≠ "") :
    Subcommand.dump.invocation ["--", root] = .ok ⟨none, .dump (.ofRoot root)⟩ := by
  have hscan : scanPart .dump ["--", root] = .ok ⟨[(.operand, root)], none, true, true⟩ :=
    give_operand h
  rw [Subcommand.invocation, hscan]
  rfl

theorem invocation_plain_root (h : root ≠ "") (hplain : Word.ofString root = .plain) :
    Subcommand.dump.invocation [root] = .ok ⟨none, .dump (.ofRoot root)⟩ := by
  have hstep : Scan.start.step .dump root = Scan.start.meetPlain .dump root := by
    rw [Scan.step, hplain]
    rfl
  have hscan : scanPart .dump [root] = .ok ⟨[(.operand, root)], none, true, false⟩ := by
    rw [scanPart, List.foldlM_cons, hstep]
    exact give_operand h
  rw [Subcommand.invocation, hscan]
  rfl

theorem meetFlag_start {flag : Flag} {attached : Option String}
    (h : Scan.start.meetFlag flag attached = .ok t) :
    t = { Scan.start with pending := some (.flag flag, none) } ∨
      ∃ value, t = { Scan.start with given := [(.flag flag, value)] } := by
  unfold Scan.meetFlag at h
  split at h
  · exact .inl (Except.ok.inj h).symm
  · exact .inr ⟨_, (Scan.give_eq_ok h).2⟩
  · exact .inr ⟨_, (Scan.give_eq_ok h).2⟩
  · cases h

/-- A word that is not plain is no root. -/
theorem plain_of_invocation (h : Subcommand.dump.invocation [root] = .ok invocation) :
    Word.ofString root = .plain := by
  rw [Subcommand.invocation, scanPart, List.foldlM_cons] at h
  rcases hstep : Scan.start.step .dump root with fault | t
  · rw [hstep] at h
    cases h
  rw [hstep] at h
  -- a flag leaves no operand behind, whether it waits for its value or has it
  have hflag {flag attached} (hmet : Scan.start.meetFlag flag attached = .ok t) : False := by
    rcases meetFlag_start hmet with rfl | ⟨value, rfl⟩
    · cases h
    · cases flag <;> cases h
  have hunescaped : ¬ Scan.start.escaped = true := Bool.false_ne_true
  rw [Scan.step, if_neg hunescaped] at hstep
  split at hstep
  · cases hstep
    cases h
  · split at hstep
    · exact (hflag hstep).elim
    · cases hstep
  · split at hstep
    · exact (hflag hstep).elim
    · cases hstep
  · assumption

/-! ## Behind log options -/

/-- Log options that are accepted before `dump`. -/
def Accepted (options : List LogOption) : Prop :=
  ∃ words invocation, Invocation.ofWords (logWords options ++ "dump" :: words) = .ok invocation

theorem Accepted.exists_invocationFrom (h : Accepted options) :
    ∃ s outer, s.Idle ∧ s.settle = .ok outer ∧
      ∀ rest, Invocation.ofWords (logWords options ++ rest) = invocationFrom s rest := by
  obtain ⟨words, invocation, h⟩ := h
  obtain ⟨s, hs, hgo⟩ := exists_invocationFrom_logWords Scan.idle_start h
  have hname : Subcommand.ofName? "dump" = some .dump := rfl
  rw [Invocation.ofWords, hgo, invocationFrom_of_ofName? hs hname] at h
  rcases hsettle : s.settle with fault | outer
  · rw [hsettle] at h
    cases hinner : Subcommand.dump.invocation words <;> rw [hinner] at h <;> cases h
  · exact ⟨s, outer, hs, hsettle, hgo⟩

theorem invocationFrom_dump (hs : s.Idle) (hsettle : s.settle = .ok outer) (words : List String) :
    invocationFrom s ("dump" :: words) =
      (Subcommand.dump.invocation words).map (·.withOuter outer) := by
  have hname : Subcommand.ofName? "dump" = some .dump := rfl
  rw [invocationFrom_of_ofName? hs hname, hsettle]
  cases Subcommand.dump.invocation words <;> rfl

/-- Before the subcommand there is no operand, and where it is no value, a plain word is refused. -/
theorem meetPlain_top (h : s.escaped = true ∨ s.awaiting? = none) :
    s.meetPlain .top word =
      .error (if word ∈ subcommands then .unknownArgument else .invalidSubcommand) := by
  have hmem : word ∈ subcommands ↔ (Subcommand.ofName? word).isSome = true := mem_subcommands_iff
  unfold Scan.meetPlain
  split
  · rename_i hescaped hawaiting
    rw [hescaped, hawaiting] at h
    rcases h with h | h <;> cases h
  · change (if (Subcommand.ofName? word).isSome = true then throw UsageFault.unknownArgument
      else throw UsageFault.invalidSubcommand) = _
    by_cases hname : word ∈ subcommands
    · rw [if_pos (hmem.mp hname), if_pos hname]
      rfl
    · rw [if_neg (mt hmem.mpr hname), if_neg hname]
      rfl

theorem invocationFrom_escaped_subcommand (hs : s.Idle) (hword : word ∈ subcommands) :
    invocationFrom s ("--" :: word :: words) = .error .unknownArgument := by
  have hstep : s.step .top "--" = .ok { s with escaped := true } := by
    rw [Scan.step, hs.unescaped]
    rfl
  have hrefused : ({ s with escaped := true } : Scan).step .top word = .error .unknownArgument := by
    rw [Scan.step, if_pos rfl, meetPlain_top (.inl rfl), if_pos hword]
  have hescaped : ¬ ({ s with escaped := true } : Scan).Idle := fun hidle => nomatch hidle.unescaped
  rw [invocationFrom_of_step fun _ => rfl, hstep]
  change invocationFrom { s with escaped := true } (word :: words) = _
  rw [invocationFrom_of_step fun hidle => absurd hidle hescaped, hrefused]
  rfl

theorem invocationFrom_dash (hs : s.Idle) :
    invocationFrom s ["-"] = .error .invalidSubcommand := by
  have hstep : s.step .top "-" = .error .invalidSubcommand := by
    rw [Scan.step, hs.unescaped]
    exact meetPlain_top (.inr hs.awaiting)
  rw [invocationFrom_of_step fun _ => rfl, hstep]
  rfl

/-! ## The short form -/

/-- The short form means what the long form means, unless the root begins with a dash. What is put
in behind `--` is not taken for a subcommand, and nothing is put in before a lone dash. -/
theorem short_form_of_root (hoptions : Accepted options) (hroot : root ≠ "") :
    ∃ log,
      let dump : Invocation := ⟨log, .dump (.ofRoot root)⟩
      Invocation.ofWords (logWords options ++ ["dump", "--", root]) = .ok dump ∧
      Invocation.ofWords (insertDump (logWords options ++ ["--", root])) =
        .error .unknownArgument ∧
      (startsWithDash root = false ∨ root = "-" →
        Invocation.ofWords (logWords options ++ ["dump", root]) = .ok dump) ∧
      ∀ invocation, Invocation.ofWords (logWords options ++ ["dump", root]) = .ok invocation →
        root ∉ subcommands →
          invocation = dump ∧
          Invocation.ofWords (insertDump (logWords options ++ [root])) =
            if root = "-" then .error .invalidSubcommand else .ok dump := by
  obtain ⟨s, outer, hs, hsettle, hgo⟩ := hoptions.exists_invocationFrom
  have hlong {words : List String} (h : Subcommand.dump.invocation words =
      .ok ⟨none, .dump (.ofRoot root)⟩) : Invocation.ofWords (logWords options ++ "dump" :: words) =
        .ok ⟨outer.value? (.flag .log), .dump (.ofRoot root)⟩ := by
    rw [hgo, invocationFrom_dump hs hsettle, h]
    rfl
  refine ⟨outer.value? (.flag .log), hlong (invocation_escaped_root hroot), ?_, ?_, ?_⟩
  · rw [insertDump_logWords, insertDump_escape, hgo]
    -- either way the word behind `--` is the name of a subcommand
    by_cases hmem : root ∈ subcommands
    · rw [putDump_of_mem hmem, invocationFrom_escaped_subcommand hs hmem]
    · rw [putDump_of_not_mem hmem, invocationFrom_escaped_subcommand hs (by decide)]
  · intro hplain
    exact hlong (invocation_plain_root hroot (ofString_eq_plain_iff.mpr hplain))
  · intro invocation h hmem
    have hplain : Word.ofString root = .plain := by
      rw [hgo, invocationFrom_dump hs hsettle] at h
      rcases hinner : Subcommand.dump.invocation [root] with fault | inner
      · rw [hinner] at h
        cases h
      · exact plain_of_invocation hinner
    have hmeans := hlong (invocation_plain_root hroot hplain)
    refine ⟨Except.ok.inj (h.symm.trans hmeans), ?_⟩
    split
    · rename_i hdash
      subst hdash
      rw [insertDump_logWords, hgo]
      exact invocationFrom_dash hs
    · rename_i hdash
      have hstarts := (ofString_eq_plain_iff.mp hplain).resolve_right hdash
      rw [insertDump_of_root options hstarts hmem, hmeans]

theorem short_form_behind_log :
    Accepted [.apart "debug"] ∧ "a.jar" ≠ "" ∧ "a.jar" ∉ subcommands ∧
      ∃ log,
        Invocation.ofWords ["--log", "debug", "dump", "a.jar"] =
          .ok ⟨log, .dump (.ofRoot "a.jar")⟩ ∧
        Invocation.ofWords (insertDump ["--log", "debug", "a.jar"]) =
          .ok ⟨log, .dump (.ofRoot "a.jar")⟩ ∧
        Invocation.ofWords (insertDump ["--log", "debug", "--", "a.jar"]) =
          .error .unknownArgument := by
  have haccepted : Accepted [.apart "debug"] := ⟨["b"], ⟨some "debug", .dump (.ofRoot "b")⟩, rfl⟩
  have hmem : "a.jar" ∉ subcommands := by decide
  have hroot : "a.jar" ≠ "" := by decide
  obtain ⟨log, -, hescaped, hlong, hshort⟩ := short_form_of_root haccepted hroot
  have hdump := hlong (.inl (by decide))
  obtain ⟨-, hsame⟩ := hshort _ hdump hmem
  exact ⟨haccepted, hroot, hmem, log, hdump, hsame, hescaped⟩

/-- The long form takes both roots, and the short form takes neither. -/
theorem short_form_refused :
    (Invocation.ofWords ["dump", "--", "x"] = .ok ⟨none, .dump (.ofRoot "x")⟩ ∧
        Invocation.ofWords (insertDump ["--", "x"]) = .error .unknownArgument) ∧
      Invocation.ofWords ["dump", "-"] = .ok ⟨none, .dump (.ofRoot "-")⟩ ∧
        Invocation.ofWords (insertDump ["-"]) = .error .invalidSubcommand :=
  ⟨⟨rfl, rfl⟩, rfl, rfl⟩

end CommandLine

end JvmSymbols
