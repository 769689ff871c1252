import JvmSymbols.Text.JsonReader
import JvmSymbols.Text.JsonString
import Mathlib.Data.List.Basic
import Mathlib.Data.Option.Basic

/-!
# JSON strings read back

The reader takes a quoted text for the text that was quoted (`contentAfter_spelling`), and nothing
in a quoted text is a control character (`le_of_mem_pieces`).
-/

namespace JvmSymbols.JsonString

open JsonReader (charAt? contentAfter escapeAt? hexValue? unicodeAt? unit?)

/-- What stands for a character in a quoted text. -/
def spelling (c : Char) : List Char := (escape? c).getD [c]

theorem flatMap_chars_consChar (c : Char) (fragments : List Fragment) :
    (consChar c fragments).flatMap Fragment.chars = spelling c ++ fragments.flatMap Fragment.chars := by
  unfold consChar spelling
  rcases escape? c with _ | form
  · rcases fragments with _ | ⟨run | form, fragments⟩ <;> rfl
  · rfl

theorem flatMap_chars_fragments (text : List Char) :
    (fragments text).flatMap Fragment.chars = text.flatMap spelling := by
  induction text with
  | nil => rfl
  | cons c text ih =>
    rw [fragments, List.foldr_cons, flatMap_chars_consChar, List.flatMap_cons, ← ih]
    rfl

theorem flatMap_toList_pieces (text : String) :
    (pieces text).flatMap String.toList = '"' :: (text.toList.flatMap spelling ++ ['"']) := by
  rw [← flatMap_chars_fragments, pieces]
  simp [List.flatMap_map]

/-! ## Escapes -/

theorem hexValue?_hexDigit : ∀ n < 16, hexValue? (hexDigit n) = some n := by decide

theorem le_toNat_hexDigit : ∀ n < 16, 0x20 ≤ (hexDigit n).toNat := by decide

theorem unit?_hexDigit {n : Nat} (h : n < 256) (text : List Char) :
    unit? ('0' :: '0' :: hexDigit (n / 16) :: hexDigit (n % 16) :: text) = some (UInt16.ofNat n) := by
  have hzero : hexValue? '0' = some 0 := by decide
  have hhigh := hexValue?_hexDigit (n / 16) (by omega)
  have hlow := hexValue?_hexDigit (n % 16) (by omega)
  have hn : n / 16 * 16 + n % 16 = n := by omega
  simp [unit?, hzero, hhigh, hlow, hn]

theorem single_control : ∀ n < 0x20, Utf16.isHigh (.ofNat n) = false ∧
    Utf16.isLow (.ofNat n) = false ∧ Utf16.single (.ofNat n) = Char.ofNat n := by decide

theorem unicodeAt?_control {n : Nat} (h : n < 0x20) (text : List Char) :
    unicodeAt? ('0' :: '0' :: hexDigit (n / 16) :: hexDigit (n % 16) :: text) =
      some (Char.ofNat n, 4) := by
  obtain ⟨hhigh, hlow, hsingle⟩ := single_control n h
  simp [unicodeAt?, unit?_hexDigit (Nat.lt_trans h (by decide)), hhigh, hlow, hsingle]

/-- A character stands for itself or is escaped. The reader takes an escape for the character. -/
theorem spelling_cases (c : Char) :
    (spelling c = [c] ∧ c ≠ '"' ∧ c ≠ '\\' ∧ 0x20 ≤ c.toNat) ∨
      ∃ form, spelling c = '\\' :: form ∧ (∀ d ∈ form, 0x20 ≤ d.toNat) ∧
        ∀ text, escapeAt? (form ++ text) = some (c, form.length) := by
  have hchar {n : Nat} (h : c.toNat = n) : c = Char.ofNat n := by rw [← h, Char.ofNat_toNat]
  have hform {d : Char} (h : 0x20 ≤ d.toNat) : ∀ d' ∈ [d], 0x20 ≤ d'.toNat :=
    List.forall_mem_singleton.mpr h
  rw [spelling, escape?]
  split_ifs with hquote hbackslash h8 h9 hA hC hD hcontrol
  · exact .inr ⟨['"'], rfl, hform (by decide), fun _ => by rw [hquote]; rfl⟩
  · exact .inr ⟨['\\'], rfl, hform (by decide), fun _ => by rw [hbackslash]; rfl⟩
  · exact .inr ⟨['b'], rfl, hform (by decide), fun _ => by rw [hchar h8]; rfl⟩
  · exact .inr ⟨['t'], rfl, hform (by decide), fun _ => by rw [hchar h9]; rfl⟩
  · exact .inr ⟨['n'], rfl, hform (by decide), fun _ => by rw [hchar hA]; rfl⟩
  · exact .inr ⟨['f'], rfl, hform (by decide), fun _ => by rw [hchar hC]; rfl⟩
  · exact .inr ⟨['r'], rfl, hform (by decide), fun _ => by rw [hchar hD]; rfl⟩
  · refine .inr ⟨['u', '0', '0', hexDigit (c.toNat / 16), hexDigit (c.toNat % 16)], rfl, ?_,
      fun text => ?_⟩
    · have hhigh := le_toNat_hexDigit (c.toNat / 16) (by omega)
      have hlow := le_toNat_hexDigit (c.toNat % 16) (by omega)
      simp [hhigh, hlow]
    · have hread := unicodeAt?_control hcontrol text
      rw [Char.ofNat_toNat] at hread
      simp [escapeAt?, hread]
  · exact .inl ⟨rfl, hquote, hbackslash, Nat.not_lt.mp hcontrol⟩

/-! ## Strings -/

theorem contentAfter_length (front text : List Char) :
    contentAfter front.length (front ++ text) = contentAfter 0 text := by
  induction front with
  | nil => rfl
  | cons c front ih => exact ih

theorem contentAfter_spelling (content text : List Char) :
    contentAfter 0 (content.flatMap spelling ++ '"' :: text) = some (content, text) := by
  induction content with
  | nil => rfl
  | cons c content ih =>
    rw [List.flatMap_cons, List.append_assoc]
    rcases spelling_cases c with ⟨hself, hquote, hbackslash, hplain⟩ | ⟨form, hform, -, hread⟩
    · have hat (text : List Char) : charAt? c text = some (c, 0) := by
        rw [charAt?, if_neg hbackslash, if_neg (Nat.not_lt.mpr hplain)]
      rw [hself, List.singleton_append, contentAfter, if_neg hquote, hat]
      simp only [ih, Option.map_some]
    · have hat (text : List Char) : charAt? '\\' (form ++ text) = some (c, form.length) := hread text
      rw [hform, List.cons_append, contentAfter, if_neg (by decide), hat]
      simp only [contentAfter_length, ih, Option.map_some]

theorem le_of_mem_pieces {text : String} {c : Char} (h : c ∈ (pieces text).flatMap String.toList) :
    0x20 ≤ c.toNat := by
  rw [flatMap_toList_pieces] at h
  simp only [List.mem_cons, List.mem_append, List.mem_flatMap, List.not_mem_nil, or_false] at h
  rcases h with rfl | ⟨d, -, hc⟩ | rfl
  · decide
  · rcases spelling_cases d with ⟨hself, -, -, hplain⟩ | ⟨form, hform, hforms, -⟩
    · rw [hself] at hc
      rwa [List.mem_singleton.mp hc]
    · rw [hform] at hc
      rcases List.mem_cons.mp hc with rfl | hc
      · decide
      · exact hforms c hc
  · decide

end JvmSymbols.JsonString
