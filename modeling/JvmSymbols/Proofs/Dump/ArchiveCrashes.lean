import JvmSymbols.Proofs.Archive.DeclaredSizes
import JvmSymbols.Proofs.Dump.FailedNames

/-!
# Archives that end a run

A policy speaks of failures only. An entry that asks for more memory than there can be ends the
whole run, also one that leaves failures out. A report on the entries of an archive comes to its end
if none of them does that, and only then does it tell anything (`declared_sizes_end_runs`).
-/

namespace JvmSymbols

open Archive (Abort Declares widened)
open CarriesTree (tree)
open Dump (Failure)
open FileTree (Appended)

namespace ArchiveSource

theorem outcome_eq_error_iff {source : ArchiveSource} {key : String} {abort : Abort} :
    source.outcome key = .error abort ↔ ∃ entry ∈ source.archive.entries, ∃ start,
      source.archive.openEntry (source.nameOf key) = .ok (entry, start) ∧
        entry.abort? = some abort := by
  have hread : source.outcome key = .error abort ↔
      source.archive.read (source.nameOf key) = .error (.abort abort) := by
    rw [outcome]
    split <;> simp_all
  rw [hread, Archive.read_eq_abort_iff]

end ArchiveSource

namespace Dump

section
variable {m : Type → Type} [Monad m] [LawfulMonad m] [MonadExceptOf Abort m] {own σ : Type}
  [RunsOver own σ m] [FileSystem m] [CarriesTree own σ m] {settings : Settings}
  {source : ArchiveSource} {keys : List String}

/-- No entry ends the run. -/
def Harmless (source : ArchiveSource) (keys : List String) : Prop :=
  ∀ key ∈ keys, ∀ abort, source.outcome key ≠ .error abort

theorem ends_makeReport_of_harmless (settings : Settings) (h : Harmless source keys)
    (s : own × σ) :
    ∃ r s', EndsWith (makeReport settings (source.candidates keys) :
      ExceptT Failure m Summary).run s r s' := by
  have hkeeps : ∀ c ∈ (source.candidates keys : List (Candidate m)), ∀ here opened,
      c.Keeps (fun held s => Appended here held opened (tree m s.2))
        (GivenUp False fun held s => Appended here held opened (tree m s)) Anything := by
    intro c hc here opened held s hs
    obtain ⟨key, hkey, rfl⟩ := List.mem_map.mp hc
    -- the archive is in memory, so a read that gives a result leaves the file system alone
    rcases houtcome : source.outcome key with abort | result
    · exact absurd houtcome (h key hkey abort)
    · have hread : (source.read key : ExceptT Failure m Bytes).run = pure result :=
        run_read_archive houtcome
      exact hread ▸ ends_pure.mpr ⟨hs, trivial⟩
  exact (ends_makeReport_of_steady hkeeps s).ends

/-- A report on the entries tells of each of them. -/
theorem exists_results (hskip : settings.policy = .skipAndContinue) {s s' : own × σ}
    {summary : Summary}
    (h : EndsWith (makeReport settings (source.candidates keys) : ExceptT Failure m Summary).run s
      (.ok summary) s') :
    ∃ results : List Pending, results.map Prod.fst = keys ∧
      (∀ pending ∈ results, source.outcome pending.1 = .ok pending.2) ∧
      summary.failed = (failures (results.map Pending.parse)).map Failure.entry ∧
      summary.reportSha256 = Sha256.hexHash (Utf8.encode
        (Symbol.render (kept (results.map Pending.parse)) settings.format)) := by
  have hfinished : Finished settings (fun key r => source.outcome key = .ok r)
      (source.candidates keys : List (Candidate m)) (tree m s.2) (tree m s'.2) summary :=
    (ends_makeReport (quiet_archive source keys) s).of_endsWith h
  obtain ⟨-, -, hgave, hfold, rfl, -, -⟩ := hfinished
  have hnames := map_fst_of_gave hgave
  rw [ArchiveSource.candidates, List.map_map] at hnames
  refine ⟨_, hnames.trans (List.map_id keys), forall_of_gave hgave, ?_, rfl⟩
  rw [hskip, foldlM_step_skip] at hfold
  obtain rfl := Except.ok.inj hfold
  rfl

theorem harmless_of_results {results : List Pending} (hkeys : results.map Prod.fst = keys)
    (h : ∀ pending ∈ results, source.outcome pending.1 = .ok pending.2) : Harmless source keys := by
  intro key hkey abort habort
  rw [← hkeys] at hkey
  obtain ⟨pending, hpending, rfl⟩ := List.mem_map.mp hkey
  cases habort.symm.trans (h pending hpending)

end

/-- An archive of a class `A` and of one byte that is declared to be `2 ^ 63` of them. -/
def lyingZip : Bytes :=
    [80, 75, 3, 4, 20, 0, 0, 0, 0, 0, 0, 0, 33, 0, 97, 2, 206, 82, 31, 0, 0, 0, 31, 0, 0, 0, 7, 0,
    0, 0, 97, 46, 99, 108, 97, 115, 115, 202, 254, 186, 190, 0, 0, 0, 52, 0, 3, 1, 0, 1, 65, 7, 0,
    1, 0, 33, 0, 2, 0, 0, 0, 0, 0, 0, 0, 0, 0, 0, 80, 75, 3, 4, 20, 0, 0, 0, 0, 0, 0, 0, 33, 0,
    131, 22, 220, 140, 1, 0, 0, 0, 255, 255, 255, 255, 7, 0, 0, 0, 122, 46, 99, 108, 97, 115, 115,
    120, 80, 75, 1, 2, 20, 0, 20, 0, 0, 0, 0, 0, 0, 0, 33, 0, 97, 2, 206, 82, 31, 0, 0, 0, 31, 0,
    0, 0, 7, 0, 0, 0, 0, 0, 0, 0, 0, 0, 0, 0, 0, 0, 0, 0, 0, 0, 97, 46, 99, 108, 97, 115, 115, 80,
    75, 1, 2, 20, 0, 20, 0, 0, 0, 0, 0, 0, 0, 33, 0, 131, 22, 220, 140, 1, 0, 0, 0, 255, 255, 255,
    255, 7, 0, 12, 0, 0, 0, 0, 0, 0, 0, 0, 0, 0, 0, 68, 0, 0, 0, 122, 46, 99, 108, 97, 115, 115, 1,
    0, 8, 0, 0, 0, 0, 0, 0, 0, 0, 128, 80, 75, 5, 6, 0, 0, 0, 0, 2, 0, 2, 0, 118, 0, 0, 0, 106, 0,
    0, 0, 0, 0]

def lyingArchive : Archive where
  bytes := lyingZip
  entries := [
    ⟨"a.class", 0, false, false, 0x52CE0261, 31, 31, 0⟩,
    ⟨"z.class", 0, false, false, 0x8CDC1683, 1, 2 ^ 63, 68⟩]

/-- What is read from the archive, and how a dump of it ends. -/
theorem outcomes_lyingZip :
    Archive.entriesOf lyingZip = .ok lyingArchive.entries ∧
      (ArchiveSource.outcome ⟨.ofString "z.jar", lyingArchive, ∅⟩ "a.class").toOption.isSome = true ∧
      (Run.on (workingTree [("z.jar", .file lyingZip)])
        (dump (twoFilesSettings (.ofString "z.jar")) : ExceptT Failure World Summary).run).1 =
          .error .capacityOverflow := by
  decide +kernel

theorem ofBytes_lyingZip : Archive.ofBytes lyingZip = .ok lyingArchive := by
  rw [Archive.ofBytes, outcomes_lyingZip.1]
  rfl

end Dump

end JvmSymbols
