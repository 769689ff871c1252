import JvmSymbols.Proofs.Symbol.Lines

/-!
# The lines of a plain report

A plain line is not escaped, so that every newline in a name is one in the report
(`count_render_text`). Without such names each symbol has just one line (`splitOn_render_text`).
-/

namespace JvmSymbols

namespace Symbol

/-- The texts that a symbol is made of. -/
def names : Symbol → List String
  | classDecl owner => [owner]
  | method owner m | field owner m => [owner, m.name, m.descriptor]

/-- No name has a newline in it. -/
def OneLine (s : Symbol) : Prop := ∀ name ∈ s.names, '\n' ∉ name.toList

/-- The number of newlines in the names of a symbol. -/
def breaks (s : Symbol) : Nat := (s.names.map (·.toList.count '\n')).sum

/-- What the plain line of a symbol says. -/
def plain : Symbol → String
  | classDecl owner => "class: " ++ owner
  | method owner m => "method: " ++ owner ++ "." ++ m.name ++ m.descriptor
  | field owner m => "field: " ++ owner ++ "." ++ m.name ++ ":" ++ m.descriptor

theorem body_text (s : Symbol) : s.body .text = s.plain.toList := by
  have hline : (s.line .text).toList = s.plain.toList ++ ['\n'] := by
    rw [line, String.toList_join]
    cases s <;> simp [pieces, textPieces, plain]
  rw [body, hline, List.dropLast_concat]

theorem count_plain (s : Symbol) : s.plain.toList.count '\n' = s.breaks := by
  cases s <;> simp [plain, breaks, names]

theorem breaks_eq_zero {s : Symbol} : s.breaks = 0 ↔ s.OneLine := by
  rw [breaks, OneLine, List.sum_eq_zero_iff_forall_eq_nat]
  simp only [List.forall_mem_map, List.count_eq_zero]

/-! ## Reports -/

/-- The number of newlines in the names of symbols. -/
def totalBreaks (symbols : List Symbol) : Nat := (symbols.map breaks).sum

theorem totalBreaks_eq_zero {symbols : List Symbol} :
    totalBreaks symbols = 0 ↔ ∀ s ∈ symbols, s.OneLine := by
  rw [totalBreaks, List.sum_eq_zero_iff_forall_eq_nat]
  simp only [List.forall_mem_map, breaks_eq_zero]

theorem count_render_text (symbols : List Symbol) :
    (render symbols .text).toList.count '\n' = symbols.length + totalBreaks symbols := by
  rw [toList_render, count_joinLines, List.length_map, List.map_map, totalBreaks]
  have hcount : (fun s : Symbol => (s.body .text).count '\n') = breaks := by
    funext s
    rw [body_text, count_plain]
  exact congrArg (fun f => symbols.length + (symbols.map f).sum) hcount

theorem splitOn_render_text {symbols : List Symbol} (h : ∀ s ∈ symbols, s.OneLine) :
    (render symbols .text).toList.splitOn '\n' = symbols.map (·.plain.toList) ++ [[]] := by
  have hlines : symbols.map (·.body .text) = symbols.map (·.plain.toList) :=
    List.map_congr_left fun s _ => s.body_text
  rw [toList_render, hlines]
  refine splitOn_joinLines (List.forall_mem_map.mpr fun s hs => ?_)
  rw [← List.count_eq_zero, count_plain, breaks_eq_zero]
  exact h s hs

end Symbol

end JvmSymbols
