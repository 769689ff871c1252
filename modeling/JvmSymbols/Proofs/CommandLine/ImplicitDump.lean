import JvmSymbols.Proofs.CommandLine.Scanning

/-!
# Where the subcommand is put in

Looking for the first plain word passes over log options as reading the command line does
(`insertDump_logWords`). So a command line that is accepted as it stands is left alone, and one that
only lacks its subcommand gets it at the right place.
-/

namespace JvmSymbols.CommandLine

variable {word root : String} {words : List String} {s : Scan} {invocation : Invocation}

/-! ## One word -/

theorem putDump_of_mem (h : word ∈ subcommands) : putDump (word :: words) = word :: words := by
  rw [putDump, if_pos (List.contains_iff_mem.mpr h)]

theorem putDump_of_not_mem (h : word ∉ subcommands) :
    putDump (word :: words) = "dump" :: word :: words := by
  rw [putDump, if_neg (mt List.contains_iff_mem.mp h)]

theorem insertDump_escape : insertDump ("--" :: words) = "--" :: putDump words := by
  unfold insertDump
  rw [if_pos rfl]

theorem insertDump_of_plain (h : startsWithDash word = false) :
    insertDump (word :: words) = putDump (word :: words) := by
  have hescape : word ≠ "--" := by rintro rfl; cases h
  have hlog : word ≠ "--log" := by rintro rfl; cases h
  unfold insertDump
  rw [if_neg hescape, if_neg hlog, h, if_neg Bool.false_ne_true]

theorem insertDump_of_dash (hescape : word ≠ "--") (hlog : word ≠ "--log")
    (h : startsWithDash word = true) : insertDump (word :: words) = word :: insertDump words := by
  conv => lhs; unfold insertDump
  rw [if_neg hescape, if_neg hlog, if_pos h]

theorem insertDump_of_mem (h : word ∈ subcommands) :
    insertDump (word :: words) = word :: words := by
  rw [insertDump_of_plain (startsWithDash_of_mem_subcommands h), putDump_of_mem h]

theorem insertDump_attached (value : String) :
    insertDump (("--log=" ++ value) :: words) = ("--log=" ++ value) :: insertDump words := by
  obtain ⟨word, rest, hwords, hdash⟩ := (LogOption.attached value).exists_words
  obtain ⟨rfl, -⟩ := List.cons.inj hwords
  exact insertDump_of_dash (LogOption.attached_ne (by decide)) (LogOption.attached_ne (by decide))
    hdash

/-! ## Log options are passed over -/

theorem insertDump_logWords (options : List LogOption) (rest : List String) :
    insertDump (logWords options ++ rest) = logWords options ++ insertDump rest := by
  induction options with
  | nil => rfl
  | cons option options ih =>
    rw [logWords_cons, List.append_assoc, List.append_assoc, ← ih]
    cases option with
    | apart value => rfl
    | attached value => exact insertDump_attached value

/-! ## At most one word is put in -/

theorem insertDump_cases (words : List String) :
    insertDump words = words ∨
      ∃ front back, words = front ++ back ∧ insertDump words = front ++ "dump" :: back := by
  have hput (words : List String) : putDump words = words ∨ putDump words = "dump" :: words := by
    cases words with
    | nil => exact .inl rfl
    | cons word words =>
      by_cases hmem : word ∈ subcommands
      · exact .inl (putDump_of_mem hmem)
      · exact .inr (putDump_of_not_mem hmem)
  fun_induction insertDump words with
  | case1 => exact .inl rfl
  | case2 words =>
    rcases hput words with h | h
    · exact .inl (congrArg _ h)
    · exact .inr ⟨["--"], words, rfl, congrArg _ h⟩
  | case3 value words _ ih =>
    rcases ih with h | ⟨front, back, rfl, h⟩
    · exact .inl (congrArg ("--log" :: value :: ·) h)
    · exact .inr ⟨"--log" :: value :: front, back, rfl, congrArg ("--log" :: value :: ·) h⟩
  | case4 => exact .inl rfl
  | case5 word words _ _ _ ih =>
    rcases ih with h | ⟨front, back, rfl, h⟩
    · exact .inl (congrArg _ h)
    · exact .inr ⟨word :: front, back, rfl, congrArg (word :: ·) h⟩
  | case6 word words =>
    rcases hput (word :: words) with h | h
    · exact .inl h
    · exact .inr ⟨[], word :: words, rfl, h⟩

theorem putDump_putDump (words : List String) : putDump (putDump words) = putDump words := by
  cases words with
  | nil => rfl
  | cons word words =>
    by_cases hmem : word ∈ subcommands
    · rw [putDump_of_mem hmem, putDump_of_mem hmem]
    · rw [putDump_of_not_mem hmem]
      exact putDump_of_mem (by decide)

/-- Once the subcommand stands there, nothing more is put in. -/
theorem insertDump_insertDump (words : List String) :
    insertDump (insertDump words) = insertDump words := by
  fun_induction insertDump words with
  | case1 => rfl
  | case2 words => rw [insertDump_escape, putDump_putDump]
  | case3 value words _ ih => exact congrArg ("--log" :: value :: ·) ih
  | case4 => rfl
  | case5 word words hescape hlog hdash ih => rw [insertDump_of_dash hescape hlog hdash, ih]
  | case6 word words _ _ hdash =>
    by_cases hmem : word ∈ subcommands
    · rw [putDump_of_mem hmem, insertDump_of_mem hmem]
    · rw [putDump_of_not_mem hmem, insertDump_of_mem (by decide)]

/-! ## The subcommand is put in only where it is missing -/

theorem insertDump_of_accepted (h : Invocation.ofWords words = .ok invocation) :
    insertDump words = words := by
  obtain ⟨options, name, rest, rfl, hmem⟩ := exists_logWords Scan.idle_start h
  rw [insertDump_logWords, insertDump_of_mem hmem]

theorem insertDump_of_root (options : List LogOption) (hdash : startsWithDash root = false)
    (hmem : root ∉ subcommands) (rest : List String) :
    insertDump (logWords options ++ root :: rest) = logWords options ++ "dump" :: root :: rest := by
  rw [insertDump_logWords, insertDump_of_plain hdash, putDump_of_not_mem hmem]

/-- A command line that is accepted as it stands is left alone, a root behind log options gets its
subcommand, and in all cases there is nothing to do the second time. -/
theorem insertDump_only_where_missing :
    (∀ words invocation, Invocation.ofWords words = .ok invocation → insertDump words = words) ∧
      (∀ (options : List LogOption) (root : String) (rest : List String),
        startsWithDash root = false → root ∉ subcommands →
          insertDump (logWords options ++ root :: rest) =
            logWords options ++ "dump" :: root :: rest) ∧
      ∀ words : List String,
        (insertDump words = words ∨
          ∃ front back, words = front ++ back ∧ insertDump words = front ++ "dump" :: back) ∧
        insertDump (insertDump words) = insertDump words :=
  ⟨fun _ _ h => insertDump_of_accepted h,
    fun options _ rest hdash hmem => insertDump_of_root options hdash hmem rest,
    fun words => ⟨insertDump_cases words, insertDump_insertDump words⟩⟩

/-- The value of the log option is no subcommand, even if it reads like one. -/
theorem insertDump_behind_log :
    Invocation.ofWords ["--log", "dump", "inspect", "A.class"] =
        .ok ⟨some "dump", .inspect (.ofString "A.class") .text⟩ ∧
      insertDump ["--log", "dump", "inspect", "A.class"] =
        ["--log", "dump", "inspect", "A.class"] ∧
      startsWithDash "a.jar" = false ∧ "a.jar" ∉ subcommands ∧
      insertDump ["--log=debug", "--log", "--", "a.jar", "-o", "help"] =
        ["--log=debug", "--log", "--", "dump", "a.jar", "-o", "help"] ∧
      insertDump (insertDump ["--", "a.jar"]) = insertDump ["--", "a.jar"] := by
  obtain ⟨haccepted, hroot, hagain⟩ := insertDump_only_where_missing
  have hinspect : Invocation.ofWords ["--log", "dump", "inspect", "A.class"] =
      .ok ⟨some "dump", .inspect (.ofString "A.class") .text⟩ := by rfl
  have hplain : startsWithDash "a.jar" = false ∧ "a.jar" ∉ subcommands := by decide
  exact ⟨hinspect, haccepted _ _ hinspect, hplain.1, hplain.2,
    hroot [.attached "debug", .apart "--"] "a.jar" ["-o", "help"] hplain.1 hplain.2,
    (hagain ["--", "a.jar"]).2⟩

end JvmSymbols.CommandLine
