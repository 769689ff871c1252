import JvmSymbols.Proofs.Dump.Filling

/-!
# Lines that are hashed on their way

However little a sink takes at a time, and wherever it fails, the digest beside it is fed with what
the sink has accepted, and this is how far the lines were written (`writeSymbols_digesting`). A write
that is interrupted and made again counts as one.
-/

namespace JvmSymbols

open Archive (Abort)
open Dump (writeSymbols writeSymbols_append)

variable {m : Type → Type} [Monad m] [MonadExceptOf Abort m] {own σ : Type} [RunsOver own σ m]
  {inner : Sink m} {accepted : own × σ → Bytes}

/-! ## Digests of what is accepted -/

/-- Since `start` some bytes were accepted, and just these stand behind `front`. -/
def Sink.Since (accepted : own × σ → Bytes) (start : own × σ) (front held : Bytes)
    (s : own × σ) : Prop :=
  ∃ taken, held = front ++ taken ∧ accepted s = accepted start ++ taken

/-- A sink that tells what it accepted tells what it accepted since some start. -/
theorem Sink.Follows.since (h : inner.Follows fun held s => accepted s = held) (start : own × σ)
    (front : Bytes) : inner.Follows (Sink.Since accepted start front) where
  write := by
    rintro held s bytes ⟨taken, rfl, hs⟩
    refine (h.write bytes hs).mono fun r s' hr => ?_
    cases r with
    | error fault => exact ⟨taken, rfl, hr⟩
    | ok n => exact ⟨hr.1, taken ++ bytes.take n, by simp, by simp [hr.2]⟩
  flush := by
    rintro held s ⟨taken, rfl, hs⟩
    exact (h.flush hs).mono fun _ _ hs' => ⟨taken, rfl, hs'⟩

/-- The digest and the sink get the same bytes, the first ones of the lines, and all of them just if
there is no fault. What is written in two goes is written as in one. -/
theorem writeSymbols_digesting [LawfulMonad m] (h : inner.Follows fun held s => accepted s = held)
    (symbols more : List Symbol) (format : ReportFormat) (digest : Digest) (start : own × σ) :
    (∃ result digest' finish taken,
      EndsWith ((writeSymbols inner.digesting symbols format).run.run digest) start
          (result, digest') finish ∧
        digest'.taken.toList = digest.taken.toList ++ taken ∧
        accepted finish = accepted start ++ taken ∧
        taken <+: Utf8.encode (Symbol.render symbols format) ∧
        (result = .ok () ↔ taken = Utf8.encode (Symbol.render symbols format))) ∧
      Symbol.render (symbols ++ more) format =
        Symbol.render symbols format ++ Symbol.render more format ∧
      writeSymbols inner.digesting (symbols ++ more) format =
        writeSymbols inner.digesting symbols format >>= fun _ =>
          writeSymbols inner.digesting more format := by
  refine ⟨?_, ?_, writeSymbols_append _ symbols more format⟩
  · have hstart : Digest.Along (Sink.Since accepted start digest.taken.toList)
        digest.taken.toList ((digest, start.1), start.2) :=
      ⟨⟨[], (List.append_nil _).symm, (List.append_nil _).symm⟩, rfl⟩
    have hparts := (h.since start digest.taken.toList).digesting.writeParts
      ((symbols.flatMap (·.pieces format)).map Utf8.encode) hstart
    rw [← Symbol.encode_render] at hparts
    have hrun : Ends ((writeSymbols inner.digesting symbols format).run.run digest) start
        (fun p s => Sink.Took (Digest.Along (Sink.Since accepted start digest.taken.toList))
          digest.taken.toList (Utf8.encode (Symbol.render symbols format)) p.1 ((p.2, s.1), s.2))
        fun _ => False := ends_run.mpr hparts
    obtain ⟨⟨result, digest'⟩, finish, hends, taken, hprefix, ⟨hsince, hdigest⟩, hall⟩ :=
      hrun.exists_endsWith
    obtain ⟨taken', hheld, haccepted⟩ := hsince
    obtain rfl := List.append_cancel_left hheld
    exact ⟨result, digest', finish, taken, hends, hdigest, haccepted, hprefix, hall⟩
  · rw [Symbol.render, List.map_append, String.join_append]
    rfl

/-! ## A sink that takes little -/

/-- A sink with the numbers of bytes that it takes next, which has no room once they are used up,
and with what it has accepted. -/
def Sink.grudging : Sink (Run (List Nat × Bytes)) where
  write bytes := ExceptT.mk <| ExceptT.mk fun (sizes, taken) =>
    match sizes with
    | [] => (.ok (.error .noSpace), [], taken)
    | size :: sizes => (.ok (.ok (min size bytes.length)), sizes, taken ++ bytes.take size)
  flush := pure ()

theorem Sink.follows_grudging : grudging.Follows fun held s => s.2.2 = held where
  write := by
    rintro held ⟨⟨⟩, sizes, taken⟩ bytes rfl
    cases sizes with
    | nil => exact rfl
    | cons size sizes =>
      refine ⟨Nat.min_le_right _ _, congrArg (taken ++ ·) ?_⟩
      exact List.take_eq_take_min
  flush hs := ends_run_pure.mpr hs

/-- The room ends inside a character. -/
theorem writeSymbols_grudging :
    let start : Unit × List Nat × Bytes := ((), [5, 4, 1], [])
    let lines := writeSymbols Sink.grudging.digesting [.classDecl "é"] .text
    (Sink.grudging.Follows fun held s => s.2.2 = held) ∧
      ∃ digest finish,
        EndsWith (lines.run.run Digest.empty) start (.error .noSpace, digest) finish ∧
          digest.taken.toList = finish.2.2 ∧ finish.2.2 = Utf8.encode "class: " ++ [0xC3] := by
  intro start lines
  have hrun : EndsWith (lines.run.run Digest.empty) start
      (.error .noSpace, ⟨(Utf8.encode "class: " ++ [0xC3]).toArray⟩)
      ((), [], Utf8.encode "class: " ++ [0xC3]) := rfl
  obtain ⟨⟨result, digest, finish, taken, hends, hdigest, haccepted, -⟩, -⟩ :=
    writeSymbols_digesting Sink.follows_grudging [.classDecl "é"] [] .text Digest.empty start
  obtain ⟨hresult, hfinish⟩ := hends.unique hrun
  obtain rfl : result = .error .noSpace := congrArg Prod.fst hresult
  exact ⟨Sink.follows_grudging, digest, finish, hends, hdigest.trans haccepted.symm,
    congrArg (·.2.2) hfinish⟩

end JvmSymbols
