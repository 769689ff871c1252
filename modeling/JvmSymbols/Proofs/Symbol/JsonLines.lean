import JvmSymbols.Proofs.Symbol.Lines
import JvmSymbols.Proofs.Text.JsonStrings
import JvmSymbols.Proofs.Text.Utf8Inverse

/-!
# Reports of JSON objects read back

A reader that knows only JSON and the keys gets from a report just the symbols that it was made of
(`json_report_reads_back`), so that no two lists of symbols have the same report.
-/

namespace JvmSymbols

namespace Symbol

open JsonReader (contentAfter members? skipBlank value?)
open JsonString (spelling)

/-! ## Objects -/

theorem toList_jsonFieldPieces (key value : String) :
    (jsonFieldPieces key value).flatMap String.toList =
      '"' :: (key.toList.flatMap spelling ++ '"' :: ':' :: '"' ::
        (value.toList.flatMap spelling ++ ['"'])) := by
  rw [jsonFieldPieces, List.flatMap_append, List.flatMap_cons, JsonString.flatMap_toList_pieces,
    JsonString.flatMap_toList_pieces]
  simp

/-- The text of the members of an object. -/
def membersText (fields : List (String × String)) : List Char :=
  (jsonObjectPieces fields).flatMap String.toList

theorem membersText_cons (field next : String × String) (fields : List (String × String)) :
    membersText (field :: next :: fields) =
      (jsonFieldPieces field.1 field.2).flatMap String.toList ++
        ',' :: membersText (next :: fields) := by
  rw [membersText, jsonObjectPieces, List.flatMap_append, List.flatMap_cons]
  · rfl
  · exact nofun

theorem length_le_membersText (fields : List (String × String)) :
    fields.length ≤ (membersText fields).length := by
  induction fields with
  | nil => exact Nat.zero_le _
  | cons field fields ih =>
    rcases fields with _ | ⟨next, fields⟩
    · rw [membersText, jsonObjectPieces, toList_jsonFieldPieces]
      simp
    · rw [membersText_cons, List.length_append, List.length_cons (a := field),
        List.length_cons (a := ',')]
      omega

/-- One member is read off its text. What stands behind it says how to go on. -/
theorem members?_jsonFieldPieces (steps : Nat) (key value : String) (text : List Char) :
    members? (steps + 2) ((jsonFieldPieces key value).flatMap String.toList ++ text) =
      match skipBlank text with
      | ',' :: text => (members? (steps + 1) text).map fun (members, rest) =>
        ((key, .string value) :: members, rest)
      | '\x7d' :: rest => some ([(key, .string value)], rest)
      | _ => none := by
  have hvalue (text : List Char) :
      value? (steps + 1) ('"' :: (value.toList.flatMap spelling ++ '"' :: text)) =
        some (.string value, text) := by
    have hquote : skipBlank ('"' :: (value.toList.flatMap spelling ++ '"' :: text)) =
      '"' :: (value.toList.flatMap spelling ++ '"' :: text) := rfl
    rw [value?, hquote]
    simp only [JsonString.contentAfter_spelling, Option.map_some, String.ofList_toList]
  have hquote (text : List Char) : skipBlank ('"' :: text) = '"' :: text := rfl
  have hcolon (text : List Char) : skipBlank (':' :: text) = ':' :: text := rfl
  rw [toList_jsonFieldPieces, members?]
  simp only [List.cons_append, List.append_assoc, List.nil_append, hquote, hcolon,
    JsonString.contentAfter_spelling, hvalue, String.ofList_toList, Option.bind_eq_bind,
    Option.bind_some]
  rfl

/-- The members of an object that has fields of text. -/
def textMembers (fields : List (String × String)) : List (String × JsonValue) :=
  fields.map fun (key, value) => (key, .string value)

theorem members?_membersText {fields : List (String × String)} (h : fields ≠ [])
    {steps : Nat} (hsteps : fields.length < steps) (rest : List Char) :
    members? steps (membersText fields ++ '\x7d' :: rest) = some (textMembers fields, rest) := by
  induction fields generalizing steps with
  | nil => exact absurd rfl h
  | cons field fields ih =>
    obtain ⟨steps, rfl⟩ : ∃ n, steps = n + 2 :=
      ⟨steps - 2, by rw [List.length_cons] at hsteps; omega⟩
    rcases fields with _ | ⟨next, fields⟩
    · rw [membersText, jsonObjectPieces, members?_jsonFieldPieces]
      rfl
    · rw [membersText_cons, List.append_assoc, members?_jsonFieldPieces]
      have hcomma (text : List Char) : skipBlank (',' :: text) = ',' :: text := rfl
      have hfewer : (next :: fields).length < steps + 1 := by
        simp only [List.length_cons] at hsteps ⊢
        omega
      have hnext := ih (List.cons_ne_nil _ _) hfewer
      rw [List.cons_append, hcomma]
      simp only [hnext, Option.map_some]
      rfl

theorem membersText_eq_cons {fields : List (String × String)} (h : fields ≠ []) :
    ∃ text, membersText fields = '"' :: text := by
  rcases fields with _ | ⟨field, _ | ⟨next, fields⟩⟩
  · exact absurd rfl h
  · rw [membersText, jsonObjectPieces, toList_jsonFieldPieces]
    exact ⟨_, rfl⟩
  · rw [membersText_cons, toList_jsonFieldPieces]
    exact ⟨_, rfl⟩

theorem ofText?_object {fields : List (String × String)} (h : fields ≠ []) :
    JsonValue.ofText? ('\x7b' :: (membersText fields ++ ['\x7d'])) =
      some (.object (textMembers fields)) := by
  have hsteps : fields.length < (membersText fields).length + 2 :=
    Nat.lt_of_le_of_lt (length_le_membersText fields) (by omega)
  have hmembers := members?_membersText h hsteps []
  have hopen (text : List Char) : skipBlank ('\x7b' :: text) = '\x7b' :: text := rfl
  have hquote (text : List Char) : skipBlank ('"' :: text) = '"' :: text := rfl
  have hvalue : value? ((membersText fields).length + 3)
      ('\x7b' :: (membersText fields ++ ['\x7d'])) = some (.object (textMembers fields), []) := by
    obtain ⟨text, htext⟩ := membersText_eq_cons h
    rw [htext, List.cons_append] at hmembers ⊢
    rw [value?, hopen]
    simp only [hquote]
    exact congrArg (Option.map fun (members, rest) => (JsonValue.object members, rest)) hmembers
  rw [JsonValue.ofText?, List.length_cons, List.length_append, List.length_singleton, hvalue]
  rfl

theorem ofJson?_textMembers (s : Symbol) : ofJson? (.object (textMembers s.jsonFields)) = some s := by
  cases s <;> rfl

theorem jsonFields_ne_nil (s : Symbol) : s.jsonFields ≠ [] := by
  cases s <;> exact List.cons_ne_nil _ _

theorem body_json (s : Symbol) : s.body .json = '\x7b' :: (membersText s.jsonFields ++ ['\x7d']) := by
  have hline : (s.line .json).toList =
      '\x7b' :: (membersText s.jsonFields ++ ['\x7d']) ++ ['\n'] := by
    rw [line, String.toList_join]
    simp [pieces, jsonPieces, membersText]
  rw [body, hline, List.dropLast_concat]

/-! ## Reports -/

theorem ofLine?_body (s : Symbol) : ofLine? (s.body .json) = some s := by
  rw [ofLine?, body_json, ofText?_object s.jsonFields_ne_nil]
  exact ofJson?_textMembers s

theorem mapM_ofLine?_body (symbols : List Symbol) :
    (symbols.map (·.body .json)).mapM ofLine? = some symbols := by
  induction symbols with
  | nil => rfl
  | cons s symbols ih => rw [List.map_cons, List.mapM_cons, ofLine?_body, ih]; rfl

theorem le_of_mem_membersText {fields : List (String × String)} {c : Char}
    (h : c ∈ membersText fields) : 0x20 ≤ c.toNat := by
  have hfield {key value : String}
      (h : c ∈ (jsonFieldPieces key value).flatMap String.toList) : 0x20 ≤ c.toNat := by
    rw [jsonFieldPieces, List.flatMap_append, List.flatMap_cons, List.mem_append,
      List.mem_append] at h
    rcases h with h | h | h
    · exact JsonString.le_of_mem_pieces h
    · rw [List.mem_singleton.mp h]
      decide
    · exact JsonString.le_of_mem_pieces h
  induction fields with
  | nil => exact absurd h List.not_mem_nil
  | cons field fields ih =>
    rcases fields with _ | ⟨next, fields⟩
    · exact hfield h
    · rw [membersText_cons] at h
      rcases List.mem_append.mp h with h | h
      · exact hfield h
      · rcases List.mem_cons.mp h with rfl | h
        · decide
        · exact ih h

theorem le_of_mem_body_json {s : Symbol} {c : Char} (h : c ∈ s.body .json) : 0x20 ≤ c.toNat := by
  rw [body_json] at h
  rcases List.mem_cons.mp h with rfl | h
  · decide
  · rcases List.mem_append.mp h with h | h
    · exact le_of_mem_membersText h
    · rw [List.mem_singleton.mp h]
      decide

theorem newline_notMem_body_json {s : Symbol} : '\n' ∉ s.body .json := fun h =>
  absurd (le_of_mem_body_json h) (by decide)

theorem ofReport?_render_json (symbols : List Symbol) :
    ofReport? (Utf8.encode (render symbols .json)) = some symbols := by
  have hlines : ∀ line ∈ symbols.map (·.body .json), '\n' ∉ line :=
    List.forall_mem_map.mpr fun s _ => newline_notMem_body_json
  rw [ofReport?, Utf8.decode?_encode, Option.bind_eq_bind, Option.bind_some, toList_render,
    linesOf_joinLines hlines, mapM_ofLine?_body]

/-- The report has a line for each symbol, with a newline behind it and no control character in it.
A reader of JSON gets the symbols back from the lines, so that other symbols have another report. -/
theorem json_report_reads_back (symbols : List Symbol) :
    (∃ lines : List (List Char), lines.length = symbols.length ∧
      (render symbols .json).toList = lines.flatMap (· ++ ['\n']) ∧
      (∀ line ∈ lines, ∀ c ∈ line, 0x20 ≤ c.toNat) ∧
      (render symbols .json).toList.splitOn '\n' = lines ++ [[]] ∧
      lines.mapM ofLine? = some symbols) ∧
    ofReport? (Utf8.encode (render symbols .json)) = some symbols ∧
    ∀ others, Utf8.encode (render others .json) = Utf8.encode (render symbols .json) ↔
      others = symbols := by
  have hbodies : ∀ line ∈ symbols.map (·.body .json), '\n' ∉ line :=
    List.forall_mem_map.mpr fun s _ => newline_notMem_body_json
  refine ⟨⟨symbols.map (·.body .json), List.length_map _, by rw [toList_render, joinLines],
    ?_, ?_, mapM_ofLine?_body symbols⟩, ofReport?_render_json symbols, fun others => ⟨fun h => ?_, ?_⟩⟩
  · exact List.forall_mem_map.mpr fun s _ c hc => le_of_mem_body_json hc
  · rw [toList_render, splitOn_joinLines hbodies]
  · rw [← Option.some_inj, ← ofReport?_render_json others, h, ofReport?_render_json]
  · rintro rfl
    rfl

example : ofReport? (Utf8.encode (render [.field "a\\\"\n" ⟨"\x00\x1f", "\uFFFD𝄞"⟩] .json)) =
    some [.field "a\\\"\n" ⟨"\x00\x1f", "\uFFFD𝄞"⟩] := by decide +kernel

end Symbol

end JvmSymbols
