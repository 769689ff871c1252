import JvmSymbols.Proofs.Dump.Filling
import Mathlib.Algebra.Ring.Nat

/-!
# What a dump counts

The counts of a summary are those of the class files that were read and parsed
(`counts_of_foldlM_step`): they are kept apart from the report, but go with what is written to it.
-/

namespace JvmSymbols

open ClassFile (Descriptor)

namespace Dump

/-- The class file that a name stands for, if it can be read and parsed. -/
def describe? (content : String → Except Failure Bytes) (name : String) : Option Descriptor :=
  (content name).toOption.bind fun bytes => (Descriptor.ofBytes bytes).toOption

/-- What comes of each of the names. -/
def resultsOf (content : String → Except Failure Bytes) (names : List String) : List Parsed :=
  names.map fun name => Pending.parse (name, content name)

variable {content : String → Except Failure Bytes} {name : String} {names : List String}

theorem parse_cases (content : String → Except Failure Bytes) (name : String) :
    (∃ d, describe? content name = some d ∧
      Pending.parse (name, content name) = .ok (Symbol.ofDescriptor d)) ∨
    describe? content name = none ∧
      ∃ failure, Pending.parse (name, content name) = .error failure := by
  rw [describe?, Pending.parse]
  rcases content name with failure | bytes
  · exact .inr ⟨rfl, failure, rfl⟩
  · have hbind : Except.bind (.ok bytes) (symbolsOf name) =
        ((Descriptor.ofBytes bytes).map Symbol.ofDescriptor).mapError (Failure.malformed name) := rfl
    dsimp only
    rw [hbind]
    rcases hparse : Descriptor.ofBytes bytes with fault | d
    · exact .inr ⟨congrArg Except.toOption hparse, _, rfl⟩
    · exact .inl ⟨d, congrArg Except.toOption hparse, rfl⟩

theorem kept_resultsOf (content : String → Except Failure Bytes) (names : List String) :
    kept (resultsOf content names) =
      (names.filterMap (describe? content)).flatMap Symbol.ofDescriptor := by
  induction names with
  | nil => rfl
  | cons name names ih =>
    rw [resultsOf, List.map_cons, kept, List.flatMap_cons]
    rcases parse_cases content name with ⟨d, hd, hparse⟩ | ⟨hnone, failure, hparse⟩
    · rw [hparse, List.filterMap_cons_some hd, List.flatMap_cons, ← ih]
      rfl
    · rw [hparse, List.filterMap_cons_none hnone, ← ih]
      rfl

namespace Tally

theorem record_append (tally : Tally) (xs ys : List Symbol) :
    tally.record (xs ++ ys) = (tally.record xs).record ys := List.foldl_append

theorem record_ofDescriptor (tally : Tally) (d : Descriptor) :
    tally.record (Symbol.ofDescriptor d) =
      { tally with
        classes := tally.classes + 1
        methods := tally.methods + d.methods.length
        fields := tally.fields + d.fields.length } := by
  have hmethods (tally : Tally) (members : List ClassFile.Member) :
      tally.record (members.map (.method d.internalName)) =
        { tally with methods := tally.methods + members.length } := by
    induction members generalizing tally with
    | nil => rfl
    | cons member members ih =>
      refine (ih _).trans ?_
      simp [count, Nat.add_assoc, Nat.add_comm 1]
  have hfields (tally : Tally) (members : List ClassFile.Member) :
      tally.record (members.map (.field d.internalName)) =
        { tally with fields := tally.fields + members.length } := by
    induction members generalizing tally with
    | nil => rfl
    | cons member members ih =>
      refine (ih _).trans ?_
      simp [count, Nat.add_assoc, Nat.add_comm 1]
  rw [Symbol.ofDescriptor, Symbol.ofMembers, record_append, hfields]
  refine (congrArg (fun tally : Tally => { tally with fields := tally.fields + d.fields.length })
    (hmethods (tally.count (.classDecl d.internalName)) d.methods)).trans rfl

end Tally

/-- What the candidates add to a tally. -/
structure Counts (content : String → Except Failure Bytes) (names : List String)
    (tally tally' : Tally) :
    Prop where
  classes : tally'.classes = tally.classes + (names.filterMap (describe? content)).length
  methods : tally'.methods =
    tally.methods + ((names.filterMap (describe? content)).map (·.methods.length)).sum
  fields : tally'.fields =
    tally.fields + ((names.filterMap (describe? content)).map (·.fields.length)).sum
  failed : tally'.failed.length + tally'.classes = tally.failed.length + tally.classes + names.length

theorem counts_of_foldlM_step {policy : Policy} {tally tally' : Tally}
    (h : (resultsOf content names).foldlM (Tally.step policy) tally = .ok tally') :
    Counts content names tally tally' ∧ (policy = .failFast → tally'.failed = tally.failed) := by
  induction names generalizing tally with
  | nil =>
    cases h
    exact ⟨⟨rfl, rfl, rfl, rfl⟩, fun _ => rfl⟩
  | cons name names ih =>
    rw [resultsOf, List.map_cons, List.foldlM_cons] at h
    rcases parse_cases content name with ⟨d, hd, hparse⟩ | ⟨hnone, failure, hparse⟩
    · rw [hparse] at h
      obtain ⟨⟨hclasses, hmethods, hfields, hfailed⟩, hfailFast⟩ := ih h
      rw [Tally.record_ofDescriptor] at hclasses hmethods hfields hfailed hfailFast
      dsimp only at hclasses hmethods hfields hfailed hfailFast
      refine ⟨⟨?_, ?_, ?_, ?_⟩, hfailFast⟩
      · rw [List.filterMap_cons_some hd, List.length_cons, hclasses]
        omega
      · rw [List.filterMap_cons_some hd, List.map_cons, List.sum_cons, hmethods]
        omega
      · rw [List.filterMap_cons_some hd, List.map_cons, List.sum_cons, hfields]
        omega
      · rw [List.length_cons, hfailed]
        omega
    · rw [hparse] at h
      cases policy with
      | failFast => cases h
      | skipAndContinue =>
        obtain ⟨⟨hclasses, hmethods, hfields, hfailed⟩, -⟩ := ih h
        dsimp only at hclasses hmethods hfields hfailed
        refine ⟨⟨?_, ?_, ?_, ?_⟩, nofun⟩
        · rwa [List.filterMap_cons_none hnone]
        · rwa [List.filterMap_cons_none hnone]
        · rwa [List.filterMap_cons_none hnone]
        · rw [List.length_cons, hfailed, List.length_append, List.length_singleton]
          omega

end Dump

end JvmSymbols
