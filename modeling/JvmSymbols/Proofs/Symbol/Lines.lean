import JvmSymbols.Symbol.Reading
import JvmSymbols.Symbol.Render
import Mathlib.Algebra.Ring.Nat
import Mathlib.Data.List.Basic

/-!
# The lines of a report

Every symbol has a line of its own that ends in a newline. As long as there is no other newline, a
report comes apart into these lines (`splitOn_render`).
-/

namespace JvmSymbols

/-! ## Lines -/

/-- Lines with a newline behind each. -/
def joinLines (lines : List (List Char)) : List Char := lines.flatMap (· ++ ['\n'])

theorem splitOn_joinLines {lines : List (List Char)} (h : ∀ line ∈ lines, '\n' ∉ line) :
    (joinLines lines).splitOn '\n' = lines ++ [[]] := by
  induction lines with
  | nil => rfl
  | cons line lines ih =>
    obtain ⟨hline, hlines⟩ := List.forall_mem_cons.mp h
    have hcons : joinLines (line :: lines) = line ++ '\n' :: joinLines lines := by
      rw [joinLines, List.flatMap_cons, List.append_assoc]
      rfl
    rw [hcons, List.splitOn_append_cons_self_of_not_mem hline, ih hlines, List.cons_append]

theorem linesOf_joinLines {lines : List (List Char)} (h : ∀ line ∈ lines, '\n' ∉ line) :
    linesOf (joinLines lines) = lines := by
  rw [linesOf, splitOn_joinLines h, List.dropLast_concat]

theorem count_joinLines (lines : List (List Char)) :
    (joinLines lines).count '\n' = lines.length + (lines.map (·.count '\n')).sum := by
  induction lines with
  | nil => rfl
  | cons line lines ih =>
    rw [joinLines, List.flatMap_cons, List.count_append, List.count_append, List.count_singleton_self,
      List.map_cons, List.sum_cons, List.length_cons]
    rw [joinLines] at ih
    omega

/-! ## The lines of symbols -/

namespace Symbol

/-- The symbol's line without the newline that ends it. -/
def body (s : Symbol) (format : ReportFormat) : List Char := (s.line format).toList.dropLast

theorem toList_line (s : Symbol) (format : ReportFormat) :
    (s.line format).toList = s.body format ++ ['\n'] := by
  obtain ⟨front, hfront⟩ : ∃ front, s.pieces format = front ++ ["\n"] := by
    cases format with
    | text => exact ⟨(s.pieces .text).dropLast, by cases s <;> rfl⟩
    | json => exact ⟨_, (List.append_assoc _ ["\x7d"] ["\n"]).symm⟩
  have hline : (s.line format).toList = front.flatMap String.toList ++ ['\n'] := by
    rw [line, hfront, String.toList_join, List.flatMap_append]
    rfl
  rw [body, hline, List.dropLast_concat]

theorem toList_render (symbols : List Symbol) (format : ReportFormat) :
    (render symbols format).toList = joinLines (symbols.map (·.body format)) := by
  rw [render, String.toList_join, joinLines, List.flatMap_map, List.flatMap_map]
  exact List.flatMap_congr fun s _ => s.toList_line format

end Symbol

end JvmSymbols
