import Jers.Json.Wire

/-!
# Reading what was written

Each reader, placed at the text its writer produced, returns the value written and leaves the cursor
right after it. For the fields of an object this gives the list of the fields; the object scan does
not enter here.
-/

namespace Jers

open List Option Bool WireValue

/-! ### Strings and names -/

theorem scanString_escapeChar (c : Char) (t : Str) :
    scanString (jsonEscapeChar c ++ t) = (scanString t).map (Prod.map (c :: ·) id) := by
  unfold jsonEscapeChar
  split
  · rfl
  · rfl
  · rfl
  · rfl
  · next h₁ h₂ h₃ h₄ =>
    rw [singleton_append, scanString]
    · exact fun h ↦ absurd h h₁
    · exact fun _ _ h _ ↦ h₁ h
    · exact h₄

/-- Unescaping undoes escaping. -/
theorem scanString_escape (s rest : Str) :
    scanString (s.flatMap jsonEscapeChar ++ '"' :: rest) = some (s, rest) := by
  induction s with
  | nil => rfl
  | cons c s ih =>
    rw [flatMap_cons, append_assoc, scanString_escapeChar, ih]
    rfl

/-- An escaped string without its closing quote is refused. -/
theorem scanString_escape_none (s : Str) : scanString (s.flatMap jsonEscapeChar) = none := by
  induction s with
  | nil => rfl
  | cons c s ih =>
    rw [flatMap_cons, scanString_escapeChar, ih]
    rfl

theorem jsonGetString_quote (t : Str) :
    jsonGetString ('"' :: t) = (scanString t).map (Prod.map some id) := by
  rw [jsonGetString, skipWhitespace_cons_of_not_blank (by decide)]
  rfl

theorem jsonGetString_quoted (s rest : Str) :
    jsonGetString (quoted s ++ rest) = some (some s, rest) := by
  rw [quoted, cons_append, jsonGetString_quote, jsonEscapeString_length, append_assoc,
    singleton_append, scanString_escape]
  rfl

/-- A name without quotes and backslashes is read up to its closing quote. -/
theorem scanString_plain {name : Str} (h : ∀ c ∈ name, c ≠ '"' ∧ c ≠ '\\') (rest : Str) :
    scanString (name ++ '"' :: rest) = some (name, rest) := by
  induction name with
  | nil => rfl
  | cons c name ih =>
    obtain ⟨hq, hb⟩ := h c mem_cons_self
    rw [cons_append, scanString, ih fun c hc ↦ h c (mem_cons_of_mem _ hc)]
    · rfl
    · exact fun h ↦ absurd h hb
    · exact fun _ _ h _ ↦ hb h
    · exact hq

/-- A cursor that `JSONGetName` leaves alone after the colon. -/
def NameEnd (s : Str) : Prop := skipChars s " \t:".toList = s

variable {rest : Str} {c : Char}

theorem jsonGetName_quotedName {name : Str} (h : ∀ c ∈ name, c ≠ '"' ∧ c ≠ '\\')
    (hrest : NameEnd rest) : jsonGetName (quotedName name ++ rest) = some (name, rest) := by
  have hstr : jsonGetString (quotedName name ++ rest) = some (some name, ':' :: rest) := by
    rw [quotedName, cons_append, jsonGetString_quote, append_assoc]
    simp only [cons_append, nil_append, scanString_plain h]
    rfl
  have hskip : skipChars (quotedName name ++ rest) " \t,]\x7d".toList = quotedName name ++ rest :=
    skipChars_cons_of_notMem (by decide) _
  have hcolon : skipChars (':' :: rest) " \t:".toList = rest := by
    rw [skipChars_cons_of_mem (by decide), hrest]
  rw [jsonGetName, hskip, hstr]
  simp only [hcolon]

/-- Separators before a name are skipped. -/
theorem jsonGetName_skip (h : " \t,]\x7d".toList.contains c = true) (s : Str) :
    jsonGetName (c :: s) = jsonGetName s := by
  rw [jsonGetName, skipChars_cons_of_mem h, ← jsonGetName]

theorem jsonGetName_nil : jsonGetName [] = none := rfl

/-- No name can be read at a character that neither separates nor starts a string. -/
theorem jsonGetName_of_ne (h : " \t,]\x7d".toList.contains c = false)
    (hq : c ≠ '"') (hn : c ≠ 'n') (s : Str) : jsonGetName (c :: s) = none := by
  have hb : isBlank c = false := by
    by_contra hb
    simp only [isBlank, not_eq_false, or_eq_true, beq_iff_eq] at hb
    rcases hb with rfl | rfl <;> exact absurd h (by decide)
  have hnull : "null".toList.isPrefixOf (c :: s) = false := by
    simp [List.isPrefixOf, hn.symm]
  rw [jsonGetName, skipChars_cons_of_notMem h, jsonGetString, skipWhitespace_cons_of_not_blank hb]
  split
  · next heq =>
    split at heq
    · next hc => exact absurd (List.cons.inj hc).1 hq
    · rw [hnull] at heq; simp at heq
  · rfl

theorem name_plain (f : Field) : ∀ c ∈ f.name, c ≠ '"' ∧ c ≠ '\\' := by
  intro c hc
  have h := isNameChar_of_mem_name hc
  constructor <;> rintro rfl <;> exact absurd h (by decide)

theorem uppercasestring_of_upper {s : Str} (h : ∀ c ∈ s, c.toUpper = c) :
    uppercasestring s = s := by
  rw [uppercasestring, map_congr_left h, List.map_id']

theorem toUpper_of_isNameChar (h : isNameChar c = true) : c.toUpper = c := by
  have hlow : ¬(c.val ≥ 'a'.val ∧ c.val ≤ 'z'.val) := by
    rintro ⟨h₁, h₂⟩
    unfold isNameChar Char.isUpper at h
    simp only [or_eq_true, decide_eq_true_eq, beq_iff_eq] at h
    rcases h with ⟨h₃, h₄⟩ | rfl
    · exact absurd (UInt32.le_trans h₁ h₄) (by decide)
    · exact absurd h₁ (by decide)
  unfold Char.toUpper
  rw [dif_neg hlow]

theorem name_upper (f : Field) : uppercasestring f.name = f.name :=
  uppercasestring_of_upper fun _ hc ↦ toUpper_of_isNameChar (isNameChar_of_mem_name hc)

/-! ### Values -/

/-- A cursor at which a value ends: the end of the text, a comma or a closing bracket. -/
def ValueEnd (s : Str) : Prop := ∀ c t, s = c :: t → c = ',' ∨ c = ']' ∨ c = '}'

theorem valueEnd_nil : ValueEnd [] := fun _ _ h ↦ absurd h (by simp)

theorem valueEnd_cons (h : c = ',' ∨ c = ']' ∨ c = '}') (s : Str) : ValueEnd (c :: s) :=
  fun _ _ heq ↦ (List.cons.inj heq).1 ▸ h

/-- What the readers around a numeral need to know of its characters. -/
theorem numeral_char {n : ℤ} (h : c ∈ int64tostr n) :
    isPlain c = true ∧ isBlank c = false ∧ " \t:".toList.contains c = false := by
  rcases mem_int64tostr h with rfl | ⟨d, hd, rfl⟩
  · decide
  · interval_cases d <;> decide

theorem ValueEnd.notDigitHead (h : ValueEnd s) : NotDigitHead s := by
  intro c t heq
  rcases h c t heq with rfl | rfl | rfl <;> decide

theorem jsonGetNum_int64tostr {n : ℤ} (h : IsInt64 n) (hr : ValueEnd rest) :
    jsonGetNum (int64tostr n ++ rest) = some (n, rest) := by
  have hws : skipWhitespace (int64tostr n ++ rest) = int64tostr n ++ rest := by
    cases hd : int64tostr n with
    | nil => exact absurd hd (int64tostr_ne_nil n)
    | cons c t =>
      have hc : c ∈ int64tostr n := by rw [hd]; exact mem_cons_self
      exact skipWhitespace_cons_of_not_blank (numeral_char hc).2.1 _
  rw [jsonGetNum, hws]
  simp only [strtoint64_int64tostr h hr.notDigitHead]
  cases rest with
  | nil => rfl
  | cons c t => simp only [if_pos (hr c t rfl)]

theorem jsonGetBool_text (b : Bool) (rest : Str) :
    jsonGetBool ((WireValue.bool b).text ++ rest) = some (b, rest) := by
  cases b <;> rfl

theorem skipToSeparator_of_sep (h : c = ',' ∨ c = ']') (s : Str) :
    skipToSeparator (c :: s) = c :: s := by
  rcases h with rfl | rfl <;> rfl

/-- The elements of a written array are read back, whatever follows its bracket. -/
theorem stringArrayLoop_elems (ss : List Str) (rest : Str) :
    stringArrayLoop (commaJoin (ss.map quoted) ++ ']' :: rest) = some (ss.map some, rest) := by
  cases ss with
  | nil =>
    rw [map_nil, commaJoin, nil_append, stringArrayLoop_of_none rfl]
    rfl
  | cons s ss =>
    rw [map_cons, commaJoin, append_assoc]
    induction ss generalizing s with
    | nil =>
      rw [map_nil, flatMap_nil, nil_append,
        stringArrayLoop_of_close (jsonGetString_quoted s _) (skipToSeparator_of_sep (Or.inr rfl) _)]
      rfl
    | cons u us ih =>
      rw [map_cons, flatMap_cons, cons_append, cons_append, append_assoc,
        stringArrayLoop_of_comma (jsonGetString_quoted s _) (skipToSeparator_of_sep (Or.inl rfl) _),
        ih u]
      rfl

theorem jsonGetStringArray_text (ss : List Str) (rest : Str) :
    jsonGetStringArray ((WireValue.stringarray ss).text ++ rest) = some (ss.map some, rest) := by
  have htext : (stringarray ss).text ++ rest =
      '[' :: (commaJoin (ss.map quoted) ++ ']' :: rest) := by
    simp [text]
  rw [htext, jsonGetStringArray, skipWhitespace_cons_of_not_blank (by decide)]
  exact stringArrayLoop_elems ss rest

/-- **A written value is read back.** -/
theorem readValue_text (w : WireField) (hr : ValueEnd rest) :
    readValue w.field (w.value.text ++ rest) = some (w.value.received, rest) := by
  obtain ⟨f, value, -, htype, hint⟩ := w
  simp only at htype hint ⊢
  rw [readValue, ← htype]
  cases value with
  | bool b =>
    simp only [type, jsonGetBool_text]
    rfl
  | string s =>
    simp only [type, text, jsonGetString_quoted]
    rfl
  | num n =>
    simp only [type, text, jsonGetNum_int64tostr (hint n rfl) hr]
    rfl
  | stringarray ss =>
    simp only [type, jsonGetStringArray_text]
    rfl

/-! ### Fields -/

/-- A value starts with a character that `JSONGetName` does not skip after the colon. -/
theorem nameEnd_value (v : WireValue) (rest : Str) : NameEnd (v.text ++ rest) := by
  cases v with
  | bool b => cases b <;> rfl
  | string s | stringarray ss => exact skipChars_cons_of_notMem (by decide) _
  | num n =>
    cases hd : int64tostr n with
    | nil => exact absurd hd (int64tostr_ne_nil n)
    | cons c t =>
      have hc : c ∈ int64tostr n := by rw [hd]; exact mem_cons_self
      rw [text, hd]
      exact skipChars_cons_of_notMem (numeral_char hc).2.2 _

/-- The name of a written field is read, and the cursor is at its value. -/
theorem jsonGetName_field (w : WireField) (rest : Str) :
    jsonGetName (w.text ++ rest) = some (w.field.name, w.value.text ++ rest) := by
  rw [WireField.text, append_assoc]
  exact jsonGetName_quotedName (name_plain w.field) (nameEnd_value w.value rest)

/-- Loading starts by reading a name, so texts with the same next name load alike. -/
theorem loadFields_congr {s t : Str} (h : jsonGetName s = jsonGetName t) :
    loadFields s = loadFields t := by
  cases hn : jsonGetName t with
  | none => rw [loadFields_of_none (h.trans hn), loadFields_of_none hn]
  | some p =>
    obtain ⟨name, rest⟩ := p
    rw [loadFields_of_some (h.trans hn), loadFields_of_some hn]

theorem loadFields_field (w : WireField) (hr : ValueEnd rest) :
    loadFields (w.text ++ rest) = (loadFields rest).map (w.received :: ·) := by
  rw [loadFields_of_some (jsonGetName_field w rest), name_upper, fieldtonum_name, bind_some,
    readValue_text w hr, bind_some]
  rfl

theorem valueEnd_tail (ws : List WireField) (hr : ValueEnd rest) :
    ValueEnd ((ws.map WireField.text).flatMap (',' :: ·) ++ rest) := by
  cases ws with
  | nil => exact hr
  | cons w ws => exact valueEnd_cons (Or.inl rfl) _

/-- The fields after the first, each with the comma before it. -/
theorem loadFields_tail (ws : List WireField) (hr : ValueEnd rest) :
    loadFields ((ws.map WireField.text).flatMap (',' :: ·) ++ rest) =
      (loadFields rest).map (ws.map WireField.received ++ ·) := by
  induction ws with
  | nil =>
    rw [map_nil, flatMap_nil, nil_append]
    cases loadFields rest <;> rfl
  | cons w ws ih =>
    rw [map_cons, flatMap_cons, append_assoc, cons_append,
      loadFields_congr (jsonGetName_skip (by decide) _),
      loadFields_field w (valueEnd_tail ws hr), ih]
    cases loadFields rest <;> rfl

/-- **Written fields are loaded back**, with whatever can be loaded after them. -/
theorem loadFields_fieldsText (ws : List WireField) (hr : ValueEnd rest) :
    loadFields (fieldsText ws ++ rest) =
      (loadFields rest).map (ws.map WireField.received ++ ·) := by
  cases ws with
  | nil =>
    rw [fieldsText, map_nil, commaJoin, nil_append]
    cases loadFields rest <;> rfl
  | cons w ws =>
    rw [fieldsText, map_cons, commaJoin, append_assoc,
      loadFields_field w (valueEnd_tail ws hr), loadFields_tail ws hr]
    cases loadFields rest <;> rfl

theorem loadFields_fieldsText_nil (ws : List WireField) :
    loadFields (fieldsText ws) = some (ws.map WireField.received) := by
  have h := loadFields_fieldsText ws valueEnd_nil
  rw [append_nil, loadFields_of_none jsonGetName_nil] at h
  rw [h, map_some, append_nil]

end Jers
