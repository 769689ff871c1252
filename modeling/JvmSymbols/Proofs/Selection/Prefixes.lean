import JvmSymbols.Proofs.Selection.NormalForm

/-!
# What prefixes select

Prefixes of which nothing is left in normal form do not count, and those that count select each on
their own (`accepts_ofRaw_iff`). An entry is found by what its stored name begins with, since what
is taken off in front of the prefix is taken off in front of the name too.
-/

namespace JvmSymbols.Filter

open EntryName (normalizePrefix stripLeading forwardSlashes IsSeparator)

variable {raw : List String} {typed name stored : String}

/-- Something is left of the prefix in normal form. -/
def Counts (typed : String) : Prop := normalizePrefix typed ≠ ""

instance (typed : String) : Decidable (Counts typed) := inferInstanceAs (Decidable (_ ≠ _))

/-! ## Lists of prefixes -/

theorem prefixes_ofRaw_eq_nil_iff : (ofRaw raw).prefixes = [] ↔ ¬ ∃ p ∈ raw, Counts p := by
  simp [ofRaw, Counts]

theorem accepts_ofRaw_iff :
    (ofRaw raw).accepts name = true ↔ hasClassSuffix name = true ∧
      ((∃ p ∈ raw, Counts p) →
        ∃ p ∈ raw, Counts p ∧ (normalizePrefix p).toList <+: name.toList) := by
  rw [accepts, Bool.and_eq_true, Bool.or_eq_true, List.isEmpty_iff, prefixes_ofRaw_eq_nil_iff,
    ← Decidable.imp_iff_not_or]
  simp [ofRaw, Counts]

/-- A prefix that does not count selects what the empty text selects, which is everything. -/
theorem accepts_singleton_iff :
    (ofRaw [typed]).accepts name = true ↔
      hasClassSuffix name = true ∧ (normalizePrefix typed).toList <+: name.toList := by
  rw [accepts_ofRaw_iff]
  refine and_congr_right fun _ => ?_
  by_cases h : Counts typed
  · simp [h]
  · simp [h, not_not.mp h]

theorem accepts_of_not_counts (h : ¬ ∃ p ∈ raw, Counts p) :
    (ofRaw raw).accepts name = true ↔ hasClassSuffix name = true := by
  rw [accepts_ofRaw_iff]
  exact and_iff_left fun hcounts => absurd hcounts h

theorem accepts_iff_exists_singleton (h : ∃ p ∈ raw, Counts p) :
    (ofRaw raw).accepts name = true ↔
      ∃ p ∈ raw, Counts p ∧ (ofRaw [p]).accepts name = true := by
  rw [accepts_ofRaw_iff]
  constructor
  · rintro ⟨hclass, hselected⟩
    obtain ⟨p, hp, hcounts, hbegins⟩ := hselected h
    exact ⟨p, hp, hcounts, accepts_singleton_iff.mpr ⟨hclass, hbegins⟩⟩
  · rintro ⟨p, hp, hcounts, hselected⟩
    obtain ⟨hclass, hbegins⟩ := accepts_singleton_iff.mp hselected
    exact ⟨hclass, fun _ => ⟨p, hp, hcounts, hbegins⟩⟩

/-- Prefixes that count select each on their own, so one more of them only adds to the selection.
Where none counts every class file is taken, until the first one comes that does. -/
theorem prefix_adds_to_selection (raw : List String) (name : String) :
    (∀ q, (∃ p ∈ raw, Counts p) ∨ ¬ Counts q →
        (ofRaw raw).accepts name = true → (ofRaw (raw ++ [q])).accepts name = true) ∧
      ((∃ p ∈ raw, Counts p) →
        ((ofRaw raw).accepts name = true ↔
          ∃ p ∈ raw, Counts p ∧ (ofRaw [p]).accepts name = true)) ∧
      ((¬ ∃ p ∈ raw, Counts p) →
        ((ofRaw raw).accepts name = true ↔ hasClassSuffix name = true) ∧
          ∀ q, Counts q →
            ((ofRaw (raw ++ [q])).accepts name = true ↔ (ofRaw [q]).accepts name = true)) ∧
      ∀ q, ((ofRaw [q]).accepts name = true ↔
        hasClassSuffix name = true ∧ (normalizePrefix q).toList <+: name.toList) := by
  refine ⟨?_, accepts_iff_exists_singleton, fun hnone => ⟨accepts_of_not_counts hnone, ?_⟩,
    fun _ => accepts_singleton_iff⟩
  · intro q hq hselected
    by_cases hsome : ∃ p ∈ raw, Counts p
    · obtain ⟨p, hp, hcounts, hp'⟩ := (accepts_iff_exists_singleton hsome).mp hselected
      have hmem := List.mem_append_left [q] hp
      exact (accepts_iff_exists_singleton ⟨p, hmem, hcounts⟩).mpr ⟨p, hmem, hcounts, hp'⟩
    · have hnone : ¬ ∃ p ∈ raw ++ [q], Counts p := by
        simpa [or_imp, forall_and] using ⟨by simpa using hsome, hq.resolve_left hsome⟩
      exact (accepts_of_not_counts hnone).mpr ((accepts_of_not_counts hsome).mp hselected)
  · intro q hq
    have hmem := List.mem_append_right raw (List.mem_singleton_self q)
    rw [accepts_iff_exists_singleton ⟨q, hmem, hq⟩]
    constructor
    · rintro ⟨p, hp, hcounts, hselected⟩
      rcases List.mem_append.mp hp with hp | hp
      · exact absurd ⟨p, hp, hcounts⟩ hnone
      · rwa [List.mem_singleton.mp hp] at hselected
    · exact fun hselected => ⟨q, hmem, hq, hselected⟩

/-- The backslashes are read as slashes, and the blank prefix is passed over. -/
theorem prefix_adds_to_selection_net :
    Counts ".\\net\\" ∧
      (ofRaw [" ", ".\\net\\"]).accepts "net/A.class" = true ∧
      (ofRaw ([" ", ".\\net\\"] ++ ["com/"])).accepts "net/A.class" = true := by
  have hcounts : Counts ".\\net\\" := by decide
  have hselected : (ofRaw [" ", ".\\net\\"]).accepts "net/A.class" = true := by decide
  obtain ⟨hmore, -⟩ := prefix_adds_to_selection [" ", ".\\net\\"] "net/A.class"
  exact ⟨hcounts, hselected,
    hmore "com/" (.inl ⟨_, List.mem_cons_of_mem _ List.mem_cons_self, hcounts⟩) hselected⟩

/-- The empty prefix takes every class file as long as no other is given. -/
theorem prefix_ends_empty_selection :
    (ofRaw [""]).accepts "a.class" = true ∧
      (ofRaw ([""] ++ ["net/"])).accepts "a.class" = false := by
  decide

/-! ## Prefixes of stored names -/

/-- The prefix ends between the dot and the slash of a leading `./` of the name. -/
def CutsDotSlash (typed stored : String) : Prop :=
  normalizePrefix typed = "." ∧ ∃ c, IsSeparator c ∧ typed.toList ++ [c] <+: stored.toList

/-- An entry is found by whatever its stored name begins with, unless that cuts a leading `./`
apart. What is left of such a prefix is a dot, with which the name in normal form need not begin. -/
theorem accepts_normalize_iff (htrim : Blank.trim typed.toList = typed.toList)
    (hclass : hasClassSuffix stored = true) (hbegins : typed.toList <+: stored.toList) :
    (ofRaw [typed]).accepts (EntryName.normalize stored) = true ↔
      (CutsDotSlash typed stored → ['.'] <+: (EntryName.normalize stored).toList) := by
  rw [accepts_singleton_iff, and_iff_right (EntryName.hasClassSuffix_normalize hclass)]
  -- of a prefix that cuts a `./` apart a dot is left, and of the name only what follows the `./`
  by_cases hcut : CutsDotSlash typed stored
  · rw [hcut.1]
    exact ⟨fun h _ => h, fun h => h hcut⟩
  refine iff_of_true ?_ fun h => absurd h hcut
  obtain ⟨rest, hrest⟩ := hbegins
  have htyped : (normalizePrefix typed).toList = stripLeading (forwardSlashes typed.toList) := by
    rw [normalizePrefix, String.toList_ofList, htrim, EntryName.normalizeChars]
  have hstored : (EntryName.normalize stored).toList =
      stripLeading (forwardSlashes typed.toList ++ forwardSlashes rest) := by
    rw [EntryName.normalize, String.toList_ofList, EntryName.normalizeChars, ← hrest,
      EntryName.forwardSlashes_append]
  rw [htyped, hstored]
  refine EntryName.stripLeading_isPrefix_append fun hdot hslash => hcut ⟨?_, ?_⟩
  · exact String.toList_inj.mp (htyped.trans hdot)
  · obtain ⟨c, more, hc, rfl⟩ := EntryName.exists_separator hslash
    exact ⟨c, hc, more, by rw [← hrest, List.append_assoc]; rfl⟩

/-- The prefix ends inside a name, and both kinds of slashes lead it. -/
theorem accepts_normalize_minecraft :
    Blank.trim ".\\/net\\mine".toList = ".\\/net\\mine".toList ∧
      hasClassSuffix ".\\/net\\minecraft\\A.class" = true ∧
      ".\\/net\\mine".toList <+: ".\\/net\\minecraft\\A.class".toList ∧
      (ofRaw [".\\/net\\mine"]).accepts
        (EntryName.normalize ".\\/net\\minecraft\\A.class") = true := by
  have htrim : Blank.trim ".\\/net\\mine".toList = ".\\/net\\mine".toList := by decide
  have hclass : hasClassSuffix ".\\/net\\minecraft\\A.class" = true := by decide
  have hbegins : ".\\/net\\mine".toList <+: ".\\/net\\minecraft\\A.class".toList := by decide
  refine ⟨htrim, hclass, hbegins, (accepts_normalize_iff htrim hclass hbegins).mpr ?_⟩
  rintro ⟨hdot, -⟩
  exact absurd hdot (by decide)

/-- The dot that leads the stored name is not part of the name in normal form. -/
theorem dot_prefix_misses :
    ".".toList <+: "./a.class".toList ∧ hasClassSuffix "./a.class" = true ∧
      Blank.trim ".".toList = ".".toList ∧
      (ofRaw ["."]).accepts (EntryName.normalize "./a.class") = false := by
  decide

end JvmSymbols.Filter
