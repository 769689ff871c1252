import JvmSymbols.CommandLine.ImplicitDump
import JvmSymbols.CommandLine.Invocation

/-!
# Words before the subcommand

What one word can do before the subcommand is said once (`Scan.TopStep`). A command line is accepted
only if each word does one of these things (`invocationFrom_cons_eq_ok`), and never once `--` has
been met (`invocationFrom_ne_ok_of_escaped`).
-/

namespace JvmSymbols.CommandLine

/-! ## What words look like -/

theorem mem_subcommands_iff {word : String} :
    word ∈ subcommands ↔ (Subcommand.ofName? word).isSome = true := by
  unfold Subcommand.ofName? subcommands
  split <;> simp_all

theorem startsWithDash_of_mem_subcommands {word : String} (h : word ∈ subcommands) :
    startsWithDash word = false := by
  have hall : ∀ name ∈ subcommands, startsWithDash name = false := by decide
  exact hall word h

namespace Word

theorem valueOf_cons (c : Char) (chars : List Char) :
    valueOf (c :: chars) = if c = '=' then some (String.ofList chars) else valueOf chars := by
  by_cases h : c = '=' <;> simp [valueOf, h]

/-- Nothing of a long option is lost. -/
theorem takeWhile_append_valueOf (chars : List Char) :
    chars.takeWhile (· ≠ '=') ++ ((valueOf chars).elim [] fun value => '=' :: value.toList) =
      chars := by
  induction chars with
  | nil => rfl
  | cons c chars ih =>
    by_cases h : c = '='
    · simp [valueOf_cons, h]
    · rw [valueOf_cons, if_neg h, List.takeWhile_cons_of_pos (by simpa using h),
        List.cons_append, ih]

theorem eq_of_escape {text : String} (h : ofString text = .escape) : text = "--" := by
  rw [ofString] at h
  refine String.toList_inj.mp ?_
  generalize text.toList = chars at h ⊢
  unfold ofChars at h
  split at h
  case h_1 => rfl
  all_goals cases h

theorem toList_of_long {text name : String} {value : Option String}
    (h : ofString text = .long name value) :
    text.toList =
      '-' :: '-' :: (name.toList ++ value.elim [] fun value => '=' :: value.toList) := by
  rw [ofString] at h
  generalize text.toList = chars at h ⊢
  unfold ofChars at h
  split at h
  case h_2 chars _ =>
    obtain ⟨rfl, rfl⟩ := Word.long.inj h
    rw [String.toList_ofList, takeWhile_append_valueOf]
  all_goals cases h

theorem eq_of_long {text name : String} (h : ofString text = .long name none) :
    text = "--" ++ name := by
  refine String.toList_inj.mp ?_
  rw [toList_of_long h, String.toList_append]
  exact congrArg ("--".toList ++ ·) (List.append_nil _)

theorem eq_of_long_value {text name value : String} (h : ofString text = .long name (some value)) :
    text = "--" ++ name ++ "=" ++ value := by
  refine String.toList_inj.mp ?_
  rw [toList_of_long h]
  simp

end Word

/-! ## What one word does -/

namespace Scan

variable {s t : Scan} {flag : Flag} {target : Target} {word value : String}

/-- The next word may be a subcommand. -/
structure Idle (s : Scan) : Prop where
  unescaped : s.escaped = false
  awaiting : s.awaiting? = none

/-- The next word is taken for the value of a flag. -/
structure Awaits (s : Scan) : Prop where
  unescaped : s.escaped = false
  awaiting : s.awaiting?.isSome = true

theorem idle_start : start.Idle := ⟨rfl, rfl⟩

theorem Awaits.not_idle (h : s.Awaits) : ¬ s.Idle := by
  intro hidle
  have hawaiting := h.awaiting
  rw [hidle.awaiting] at hawaiting
  cases hawaiting

theorem give_eq_ok (h : s.give target value = .ok t) :
    target ≠ .flag .help ∧ t = { s with given := s.given ++ [(target, value)] } := by
  unfold give at h
  split at h
  · cases h
  rename_i hhelp
  split at h
  · cases h
  split at h
  · cases h
  · exact ⟨hhelp, (Except.ok.inj h).symm⟩

theorem settle_eq_ok (h : s.settle = .ok t) :
    s.awaiting? = none ∧ t.escaped = s.escaped ∧ t.pending = none := by
  unfold settle at h
  unfold awaiting?
  split at h
  · rename_i hpending
    cases h
    exact ⟨by rw [hpending], rfl, hpending⟩
  · cases h
  · rename_i hpending
    obtain ⟨-, rfl⟩ := give_eq_ok h
    exact ⟨by rw [hpending], rfl, rfl⟩

theorem awaiting?_of_pending (h : s.pending = none) : s.awaiting? = none := by
  rw [awaiting?, h]

theorem meetFlag_eq_ok {attached : Option String} (h : s.meetFlag flag attached = .ok t) :
    s.awaiting? = none ∧ t.escaped = s.escaped ∧ flag ≠ .help ∧
      t.awaiting? = if flag.takesValue && attached.isNone then some (.flag flag) else none := by
  unfold meetFlag at h
  rcases hsettle : s.settle with fault | r
  · rw [hsettle] at h
    split at h <;> cases h
  obtain ⟨hidle, hescaped, hpending⟩ := settle_eq_ok hsettle
  have hgiven {value : String} (h : r.give (.flag flag) value = .ok t) :
      t.escaped = s.escaped ∧ flag ≠ .help ∧ t.awaiting? = none := by
    obtain ⟨hhelp, rfl⟩ := give_eq_ok h
    exact ⟨hescaped, mt (congrArg Target.flag) hhelp, awaiting?_of_pending hpending⟩
  rw [hsettle] at h
  split at h
  · rename_i hvalue
    cases h
    refine ⟨hidle, hescaped, ?_, by rw [hvalue]; rfl⟩
    rintro rfl
    cases hvalue
  · rename_i hvalue
    obtain ⟨hkept, hhelp, hnext⟩ := hgiven h
    exact ⟨hidle, hkept, hhelp, by rw [hnext, hvalue]; rfl⟩
  · rename_i hvalue
    obtain ⟨hkept, hhelp, hnext⟩ := hgiven h
    exact ⟨hidle, hkept, hhelp, by rw [hnext, hvalue]; rfl⟩
  · cases h

theorem meetPlain_top_eq_ok (h : s.meetPlain .top word = .ok t) : s.Awaits ∧ t.Idle := by
  unfold meetPlain at h
  split at h
  · rename_i hescaped hawaiting
    cases h
    exact ⟨⟨hescaped, by rw [hawaiting]; rfl⟩, hescaped, rfl⟩
  · split at h
    · rename_i hoperand
      cases hoperand
    · split at h <;> cases h

/-- What a word does before the subcommand, if it does not end the reading. -/
inductive TopStep (s : Scan) : String → Scan → Prop
  | escape {t : Scan} : s.escaped = false → t.escaped = true → TopStep s "--" t
  | value {word : String} {t : Scan} : s.Awaits → t.Idle → TopStep s word t
  | log {t : Scan} : s.Idle → t.Awaits → TopStep s "--log" t
  | logValue (value : String) {t : Scan} : s.Idle → t.Idle → TopStep s ("--log=" ++ value) t

theorem TopStep.unescaped (h : s.TopStep word t) : s.escaped = false := by
  cases h with
  | escape hs => exact hs
  | value hs | log hs | logValue _ hs => exact hs.unescaped

/-- Help ends the reading, so the log option is all that is left. -/
theorem eq_log_of_find? {p : Flag → Bool} (hfind : Part.top.flags.find? p = some flag)
    (h : flag ≠ .help) : flag = .log ∧ p .log = true := by
  have hmem : flag ∈ [Flag.log, Flag.help] := List.mem_of_find?_eq_some hfind
  have hlog : flag = .log := by simpa [h] using hmem
  exact ⟨hlog, hlog ▸ List.find?_some hfind⟩

theorem step_top_eq_ok (h : s.step .top word = .ok t) : s.TopStep word t := by
  unfold step at h
  split at h
  · rename_i hescaped
    obtain ⟨hawaits, -⟩ := meetPlain_top_eq_ok h
    exact absurd hescaped (by rw [hawaits.unescaped]; exact Bool.false_ne_true)
  rename_i hescaped
  have hescaped : s.escaped = false := Bool.eq_false_iff.mpr hescaped
  split at h
  case h_1 hword =>
    cases h
    rw [Word.eq_of_escape hword]
    exact .escape hescaped rfl
  case h_2 name attached hword =>
    split at h
    · rename_i flag hfind
      obtain ⟨hidle, hkept, hhelp, hnext⟩ := meetFlag_eq_ok h
      obtain ⟨rfl, hname⟩ := eq_log_of_find? hfind hhelp
      obtain rfl : "log" = name := of_decide_eq_true hname
      cases attached with
      | none =>
        rw [Word.eq_of_long hword]
        exact .log ⟨hescaped, hidle⟩ ⟨hkept.trans hescaped, by rw [hnext]; rfl⟩
      | some value =>
        rw [Word.eq_of_long_value hword]
        exact .logValue value ⟨hescaped, hidle⟩ ⟨hkept.trans hescaped, hnext⟩
    · cases h
  case h_3 letter rest hword =>
    split at h
    · rename_i flag hfind
      obtain ⟨-, -, hhelp, -⟩ := meetFlag_eq_ok h
      obtain ⟨rfl, hshort⟩ := eq_log_of_find? hfind hhelp
      cases hshort
    · cases h
  case h_4 =>
    obtain ⟨hawaits, hidle⟩ := meetPlain_top_eq_ok h
    exact .value hawaits hidle

end Scan

/-! ## Reading up to the subcommand -/

/-- The log option as it is written. -/
inductive LogOption
  /-- `--log value` -/
  | apart (value : String)
  /-- `--log=value` -/
  | attached (value : String)

def LogOption.words : LogOption → List String
  | apart value => ["--log", value]
  | attached value => ["--log=" ++ value]

/-- The words of log options, one option behind another. -/
def logWords (options : List LogOption) : List String := options.flatMap LogOption.words

theorem LogOption.attached_ne {value other : String} (h : other.length < 6) :
    "--log=" ++ value ≠ other := by
  rintro rfl
  have hlength : ("--log=" ++ value).length = 6 + value.length := String.length_append _ _
  omega

theorem LogOption.words_append_inj {option other : LogOption} {rest others : List String}
    (h : option.words ++ rest = other.words ++ others) : option = other := by
  obtain value | value := option <;> obtain value' | value' := other
  · obtain ⟨-, h⟩ := List.cons.inj h
    rw [(List.cons.inj h).1]
  · exact absurd (List.cons.inj h).1.symm (attached_ne (by decide))
  · exact absurd (List.cons.inj h).1 (attached_ne (by decide))
  · have happend := congrArg String.toList (List.cons.inj h).1
    rw [String.toList_append, String.toList_append, List.append_cancel_left_eq,
      String.toList_inj] at happend
    rw [happend]

theorem LogOption.exists_words (option : LogOption) :
    ∃ word rest, option.words = word :: rest ∧ startsWithDash word = true := by
  cases option with
  | apart value => exact ⟨"--log", [value], rfl, by decide⟩
  | attached value =>
    refine ⟨"--log=" ++ value, [], rfl, ?_⟩
    rw [startsWithDash, String.toList_append]
    rfl

/-- No log option is taken for a subcommand. -/
theorem LogOption.words_append_ne {option : LogOption} {rest others : List String} {name : String}
    (hname : name ∈ subcommands) : option.words ++ rest ≠ name :: others := by
  obtain ⟨word, words, hwords, hdash⟩ := option.exists_words
  intro h
  rw [hwords, List.cons_append] at h
  obtain rfl := (List.cons.inj h).1
  exact Bool.false_ne_true ((startsWithDash_of_mem_subcommands hname).symm.trans hdash)

theorem logWords_cons (option : LogOption) (options : List LogOption) :
    logWords (option :: options) = option.words ++ logWords options := List.flatMap_cons

section

open Scan (Idle TopStep)

variable {s t : Scan} {word : String} {words : List String} {invocation : Invocation}

theorem invocationFrom_of_ofName? {subcommand : Subcommand} (hs : s.Idle)
    (h : Subcommand.ofName? word = some subcommand) :
    invocationFrom s (word :: words) = do
      let inner ← subcommand.invocation words
      return inner.withOuter (← s.settle) := by
  rw [invocationFrom, hs.unescaped, hs.awaiting, Bool.false_or, Option.isSome_none,
    if_neg Bool.false_ne_true, h]

theorem invocationFrom_of_step (h : s.Idle → Subcommand.ofName? word = none) :
    invocationFrom s (word :: words) = s.step .top word >>= (invocationFrom · words) := by
  have hnone :
      (if s.escaped || s.awaiting?.isSome then none else Subcommand.ofName? word) = none := by
    split
    · rfl
    · rename_i hidle
      obtain ⟨hescaped, hawaiting⟩ := Bool.or_eq_false_iff.mp (Bool.eq_false_iff.mpr hidle)
      exact h ⟨hescaped, by simpa using hawaiting⟩
  rw [invocationFrom, hnone]

theorem invocationFrom_cons_eq_ok (h : invocationFrom s (word :: words) = .ok invocation) :
    s.Idle ∧ word ∈ subcommands ∨
      ∃ t, s.TopStep word t ∧ ∀ rest, invocationFrom s (word :: rest) = invocationFrom t rest := by
  by_cases hname : s.Idle ∧ word ∈ subcommands
  · exact .inl hname
  have hnone (hs : s.Idle) : Subcommand.ofName? word = none := by
    have hmem : word ∉ subcommands := fun hmem => hname ⟨hs, hmem⟩
    simpa [mem_subcommands_iff] using hmem
  rw [invocationFrom_of_step hnone] at h
  rcases hstep : s.step .top word with fault | t
  · rw [hstep] at h
    cases h
  · refine .inr ⟨t, Scan.step_top_eq_ok hstep, fun rest => ?_⟩
    rw [invocationFrom_of_step hnone, hstep]
    rfl

theorem invocationFrom_nil_ne_ok : invocationFrom s [] ≠ .ok invocation := by
  rw [invocationFrom]
  cases s.settle <;> exact nofun

theorem invocationFrom_ne_ok_of_escaped (hs : s.escaped = true) :
    invocationFrom s words ≠ .ok invocation := by
  cases words with
  | nil => exact invocationFrom_nil_ne_ok
  | cons word words =>
    intro h
    have hunescaped : s.escaped = false := by
      rcases invocationFrom_cons_eq_ok h with ⟨hidle, -⟩ | ⟨t, hstep, -⟩
      · exact hidle.unescaped
      · exact hstep.unescaped
    exact Bool.false_ne_true (hunescaped.symm.trans hs)

/-- An accepted command line goes on with its subcommand or with a whole log option. -/
theorem invocationFrom_eq_ok (hs : s.Idle) (h : invocationFrom s words = .ok invocation) :
    (∃ name rest, words = name :: rest ∧ name ∈ subcommands) ∨
      ∃ option rest t, words = LogOption.words option ++ rest ∧ t.Idle ∧
        ∀ rest, invocationFrom s (option.words ++ rest) = invocationFrom t rest := by
  rcases words with _ | ⟨word, words⟩
  · exact absurd h invocationFrom_nil_ne_ok
  rcases invocationFrom_cons_eq_ok h with ⟨-, hmem⟩ | ⟨t, hstep, hgo⟩
  · exact .inl ⟨word, words, rfl, hmem⟩
  rw [hgo] at h
  cases hstep with
  | escape _ ht => exact absurd h (invocationFrom_ne_ok_of_escaped ht)
  | value hawaits _ => exact absurd hs hawaits.not_idle
  | logValue value _ ht => exact .inr ⟨.attached value, words, t, rfl, ht, hgo⟩
  | log _ ht =>
    -- the word behind `--log` is its value
    rcases words with _ | ⟨value, words⟩
    · exact absurd h invocationFrom_nil_ne_ok
    rcases invocationFrom_cons_eq_ok h with ⟨hidle, -⟩ | ⟨u, hnext, hgoOn⟩
    · exact absurd hidle ht.not_idle
    rw [hgoOn] at h
    cases hnext with
    | escape _ hu => exact absurd h (invocationFrom_ne_ok_of_escaped hu)
    | value _ hu =>
      exact .inr ⟨.apart value, words, u, rfl, hu, fun rest => (hgo _).trans (hgoOn rest)⟩
    | log hidle _ | logValue _ hidle _ => exact absurd hidle ht.not_idle

/-- Only log options stand before the subcommand of an accepted command line. -/
theorem exists_logWords (hs : s.Idle) (h : invocationFrom s words = .ok invocation) :
    ∃ options name rest, words = logWords options ++ name :: rest ∧ name ∈ subcommands := by
  -- an option can take two words at once, so the induction is on their number
  induction hlength : words.length using Nat.strongRecOn generalizing s words with
  | ind n ih =>
    rcases invocationFrom_eq_ok hs h with ⟨name, rest, rfl, hmem⟩ | ⟨option, rest, t, rfl, ht, hgo⟩
    · exact ⟨[], name, rest, rfl, hmem⟩
    · rw [hgo] at h
      have hshorter : rest.length < n := by
        rw [← hlength, List.length_append]
        cases option <;> exact Nat.lt_add_of_pos_left (Nat.succ_pos _)
      obtain ⟨options, name, rest, rfl, hmem⟩ := ih rest.length hshorter ht h rfl
      refine ⟨option :: options, name, rest, ?_, hmem⟩
      rw [logWords_cons, List.append_assoc]

/-- Log options that are passed over once are passed over whatever follows them. -/
theorem exists_invocationFrom_logWords {options : List LogOption} (hs : s.Idle)
    (h : invocationFrom s (logWords options ++ words) = .ok invocation) :
    ∃ t, t.Idle ∧ ∀ rest, invocationFrom s (logWords options ++ rest) = invocationFrom t rest := by
  induction options generalizing s with
  | nil => exact ⟨s, hs, fun _ => rfl⟩
  | cons option options ih =>
    rw [logWords_cons, List.append_assoc] at h
    -- words that begin with one log option begin with no other
    rcases invocationFrom_eq_ok hs h with
      ⟨name, rest, hwords, hmem⟩ | ⟨other, rest, t, hwords, ht, hgo⟩
    · exact absurd hwords (LogOption.words_append_ne hmem)
    · obtain rfl := LogOption.words_append_inj hwords
      rw [hgo] at h
      obtain ⟨u, hu, hgoOn⟩ := ih ht h
      refine ⟨u, hu, fun rest => ?_⟩
      rw [logWords_cons, List.append_assoc, hgo, hgoOn]

end

end JvmSymbols.CommandLine
