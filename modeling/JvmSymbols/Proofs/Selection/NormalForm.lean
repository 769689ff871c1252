import JvmSymbols.Proofs.Selection.Spelling
import JvmSymbols.Selection.Filter

/-!
# What normal forms keep

Taking off what leads a text can be done in two goes (`stripLeading_append`). The second has nothing
to do (`IsBare.append`), unless the first left a lone dot with a slash behind it.
-/

namespace JvmSymbols.EntryName

variable {text front back : List Char} {stored : String}

/-- Neither `/` nor `./` is in front. -/
structure IsBare (text : List Char) : Prop where
  slash : ¬ ['/'] <+: text
  dotSlash : ¬ ['.', '/'] <+: text

theorem isBare_stripLeading (text : List Char) : IsBare (stripLeading text) := by
  fun_induction stripLeading text with
  | case1 name ih | case2 name ih => exact ih
  | case3 name hslash hdot =>
    refine ⟨?_, ?_⟩
    · rintro ⟨rest, rfl⟩
      exact hslash rest rfl
    · rintro ⟨rest, rfl⟩
      exact hdot rest rfl

theorem IsBare.stripLeading_eq (h : IsBare text) : stripLeading text = text := by
  fun_cases stripLeading text with
  | case1 name => exact absurd (List.prefix_append ['/'] name) h.slash
  | case2 name => exact absurd (List.prefix_append ['.', '/'] name) h.dotSlash
  | case3 => rfl

theorem stripLeading_append (front back : List Char) :
    stripLeading (front ++ back) = stripLeading (stripLeading front ++ back) := by
  fun_induction stripLeading front with
  | case1 name ih | case2 name ih => exact ih
  | case3 => rfl

/-- A text that has no leading `/` or `./` gets none from what is written behind it, except that a
lone dot and a slash make `./`. -/
theorem IsBare.append (h : IsBare text) (hne : text ≠ []) (hdot : text = ['.'] → ¬ ['/'] <+: back) :
    IsBare (text ++ back) := by
  obtain ⟨c, rest, rfl⟩ := List.exists_cons_of_ne_nil hne
  refine ⟨?_, ?_⟩
  · rintro ⟨_, htext⟩
    exact h.slash ⟨rest, congrArg (· :: rest) (List.cons.inj htext).1⟩
  · rintro ⟨more, htext⟩
    obtain ⟨rfl, hrest⟩ := List.cons.inj htext
    rcases rest with _ | ⟨d, rest⟩
    · exact hdot rfl ⟨more, hrest⟩
    · exact h.dotSlash ⟨rest, congrArg ('.' :: · :: rest) (List.cons.inj hrest).1⟩

/-- What is left of a text in front is in front of what is left of the whole. -/
theorem stripLeading_isPrefix_append (h : stripLeading front = ['.'] → ¬ ['/'] <+: back) :
    stripLeading front <+: stripLeading (front ++ back) := by
  rw [stripLeading_append]
  by_cases hempty : stripLeading front = []
  · rw [hempty]
    exact List.nil_prefix
  · rw [((isBare_stripLeading front).append hempty h).stripLeading_eq]
    exact List.prefix_append _ _

theorem exists_separator (h : ['/'] <+: forwardSlashes text) :
    ∃ c rest, IsSeparator c ∧ text = c :: rest := by
  obtain ⟨more, hmore⟩ := h
  rcases text with _ | ⟨c, rest⟩
  · cases hmore
  · refine ⟨c, rest, ?_, rfl⟩
    have hc : '/' = if c = '\\' then '/' else c := (List.cons.inj hmore).1
    by_cases hback : c = '\\'
    · exact .inr hback
    · rw [if_neg hback] at hc
      exact .inl hc.symm

/-! ## The end of a name -/

theorem suffix_stripLeading (hslash : '/' ∉ back) (h : back <:+ text) :
    back <:+ stripLeading text := by
  have hcons {text : List Char} (h : back <:+ '/' :: text) : back <:+ text := by
    rcases List.suffix_cons_iff.mp h with rfl | h
    · exact absurd List.mem_cons_self hslash
    · exact h
  fun_induction stripLeading text with
  | case1 name ih => exact ih (hcons h)
  | case2 name ih =>
    rcases List.suffix_cons_iff.mp h with rfl | h
    · exact absurd (List.mem_cons_of_mem '.' List.mem_cons_self) hslash
    · exact ih (hcons h)
  | case3 => exact h

theorem hasClassSuffix_normalize (h : Filter.hasClassSuffix stored = true) :
    Filter.hasClassSuffix (normalize stored) = true := by
  have hsuffix : classSuffix.toList <:+ stored.toList := List.isSuffixOf_iff_suffix.mp h
  have hforward : classSuffix.toList <:+ forwardSlashes stored.toList := by
    have hself : forwardSlashes classSuffix.toList = classSuffix.toList := by decide
    rw [← hself]
    exact hsuffix.map _
  refine List.isSuffixOf_iff_suffix.mpr ?_
  rw [normalize, String.toList_ofList]
  exact suffix_stripLeading (by decide) hforward

end JvmSymbols.EntryName
