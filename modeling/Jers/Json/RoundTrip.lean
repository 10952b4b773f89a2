import Jers.Json.Decode

/-!
# Decoding undoes encoding

A request or a response that is loaded again yields what was written, provided the object scan finds
the right braces. Whether it does depends on the string values only, and `Framed` says exactly when.
-/

namespace Jers

open List Option Bool

/-! ### The scan over written text -/

/-- The state of the scan after a value, whose last character is never a backslash. -/
def scanned (st : Bool × ℕ) : Bool × ℕ × Bool := (st.1, st.2, false)

variable {name t : Str} {ws : List WireField} {items : List (List WireField)}

/-- A name has no quotes and leaves the scan where it was. -/
theorem scanText_quotedName (h : ∀ c ∈ name, isPlain c = true) (q : Bool) (d : ℕ) (t : Str) :
    scanText (q, d, false) (quotedName name ++ t) = scanText (q, d, false) t := by
  have hname : scanText (q, d, false) (quotedName name) = some (q, d, false) := by
    rw [quotedName, scanText_cons, scanStep_quote, bind_some, scanText_append]
    simp only [false_eq_true, if_false, scanText_plain h, bind_some]
    cases q <;> rfl
  rw [scanText_append, hname, bind_some]

/-- Pieces that are scanned as their strings say are scanned so with commas between them. -/
theorem scanText_commaJoin {ι : Type} (text : ι → Str) (strings : ι → List Str)
    (h : ∀ i q d, scanText (q, d, false) (text i) = (scanStrings (q, d) (strings i)).map scanned)
    (l : List ι) (q : Bool) (d : ℕ) :
    scanText (q, d, false) (commaJoin (l.map text)) =
      (scanStrings (q, d) (l.flatMap strings)).map scanned := by
  have hcons : ∀ (i : ι) (t : Str) (l : List ι) (q : Bool) (d : ℕ),
      (∀ q d, scanText (q, d, false) t = (scanStrings (q, d) (l.flatMap strings)).map scanned) →
      scanText (q, d, false) (text i ++ t) =
        (scanStrings (q, d) ((i :: l).flatMap strings)).map scanned := by
    intro i t l q d ht
    rw [scanText_append, h, flatMap_cons, scanStrings, scanStrings, foldlM_append]
    cases List.foldlM stringStep (q, d) (strings i) with
    | none => rfl
    | some st => exact ht st.1 st.2
  have htail : ∀ (l : List ι) (q : Bool) (d : ℕ),
      scanText (q, d, false) ((l.map text).flatMap (',' :: ·)) =
        (scanStrings (q, d) (l.flatMap strings)).map scanned := by
    intro l
    induction l with
    | nil => intro q d; rfl
    | cons i l ih =>
      intro q d
      exact hcons i _ l q d ih
  cases l with
  | nil => rfl
  | cons i l => exact hcons i _ l q d (htail l)

theorem scanText_elems (ss : List Str) (q : Bool) (d : ℕ) :
    scanText (q, d, false) (commaJoin (ss.map quoted)) = (scanStrings (q, d) ss).map scanned := by
  have h := scanText_commaJoin quoted (fun s ↦ [s])
    (fun s q d ↦ by
      rw [scanText_quoted, scanStrings, foldlM_cons]
      cases stringStep (q, d) s <;> rfl) ss q d
  rwa [flatMap_singleton'] at h

theorem isPlain_of_mem_name (f : Field) : ∀ c ∈ f.name, isPlain c = true := by
  intro c hc
  have h := isNameChar_of_mem_name hc
  simp only [isPlain, and_eq_true, bne_iff_ne]
  refine ⟨⟨⟨?_, ?_⟩, ?_⟩, ?_⟩ <;> rintro rfl <;> exact absurd h (by decide)

/-- Scanning a field does to the state what its strings do. -/
theorem scanText_field (w : WireField) (q : Bool) (d : ℕ) :
    scanText (q, d, false) w.text = (scanStrings (q, d) w.strings).map scanned := by
  rw [WireField.text, scanText_quotedName (isPlain_of_mem_name w.field), WireField.strings]
  cases w.value with
  | bool b => cases b <;> rfl
  | string s =>
    rw [WireValue.text, WireValue.strings, scanText_quoted, scanStrings, foldlM_cons]
    cases stringStep (q, d) s <;> rfl
  | num n => exact scanText_plain (fun c hc ↦ (numeral_char hc).1) q d
  | stringarray ss =>
    have hopen : scanText (q, d, false) (WireValue.stringarray ss).text =
        (scanText (q, d, false) (commaJoin (ss.map quoted))).bind fun st ↦ scanText st [']'] := by
      rw [WireValue.text, ← scanText_append]
      rfl
    rw [hopen, scanText_elems, WireValue.strings]
    cases scanStrings (q, d) ss <;> rfl

/-- The string values of a list of fields, in order. -/
def allStrings (ws : List WireField) : List Str := ws.flatMap WireField.strings

/-- The scan of fields is that of their strings. -/
theorem scanText_fieldsText (ws : List WireField) (q : Bool) (d : ℕ) :
    scanText (q, d, false) (fieldsText ws) = (scanStrings (q, d) (allStrings ws)).map scanned :=
  scanText_commaJoin WireField.text WireField.strings scanText_field ws q d

/-- An object whose text leaves the scan where it started is found with its own brace. -/
theorem jsonGetObject_of_scanText {b : Bool} (h : scanText (false, 0, false) t = some (false, 0, b))
    (rest : Str) : jsonGetObject ('{' :: (t ++ '}' :: rest)) = some (t, rest) := by
  rw [jsonGetObject, skipWhitespace_cons_of_not_blank (by decide)]
  simp only [scanObject_eq_scanFrom, show ('{' == '\\') = false from rfl]
  rw [scanFrom_append h, scanFrom_of_none (scanStep_stop b)]
  simp

theorem scanText_versionText (v : ℤ) (q : Bool) (d : ℕ) (t : Str) :
    scanText (q, d, false) (versionText v ++ t) = scanText (q, d, false) t := by
  have hnum : scanText (q, d, false) (int64tostr v) = some (q, d, false) :=
    scanText_plain (fun c hc ↦ (numeral_char hc).1) q d
  rw [versionText, append_assoc, append_assoc, scanText_quotedName (by decide),
    scanText_append, hnum]
  rfl

/-- The strings of a framed object leave the scan where it was, at any depth. -/
theorem Framed.scanText_fieldsText (h : Framed (allStrings ws)) (d : ℕ) :
    scanText (false, d, false) (fieldsText ws) = some (false, d, false) := by
  induction d with
  | zero =>
    rw [Jers.scanText_fieldsText, h]
    rfl
  | succ d ih => exact scanText_succ ih

theorem scanText_itemText_of_framed (h : Framed (allStrings ws)) (d : ℕ) (t : Str) :
    scanText (false, d, false) (itemText ws ++ t) = scanText (false, d, false) t := by
  have htext : itemText ws ++ t = '{' :: (fieldsText ws ++ '}' :: t) := by simp [itemText]
  rw [htext, scanText_cons, scanStep_open, bind_some, scanText_append,
    h.scanText_fieldsText, bind_some, scanText_cons, scanStep_close, bind_some]

/-! ### Loading an envelope -/

theorem scanText_name (h : ∀ c ∈ name, c ≠ '"' ∧ c ≠ '\\') (d : ℕ) (t : Str) :
    scanText (false, d, false) (quotedName name ++ t) = scanText (false, d, false) t := by
  have hin : ∀ name : Str, (∀ c ∈ name, c ≠ '"' ∧ c ≠ '\\') →
      scanText (true, d, false) name = some (true, d, false) := by
    intro name h
    induction name with
    | nil => rfl
    | cons c name ih =>
      obtain ⟨hq, hb⟩ := h c mem_cons_self
      rw [scanText_cons, scanStep, if_neg hq, if_neg (by simp), if_neg (by simp),
        beq_false_of_ne hb]
      exact ih fun c hc ↦ h c (mem_cons_of_mem _ hc)
  have hname : scanText (false, d, false) (quotedName name) = some (false, d, false) := by
    rw [quotedName, scanText_cons, scanStep_quote, bind_some, scanText_append]
    simp only [false_eq_true, if_false, Bool.not_false, hin name h, bind_some]
    rfl
  rw [scanText_append, hname, bind_some]

/-- Where a message goes once its name is known. -/
def loadBody (name object : Str) : Except ReadError Msg :=
  match jsonGetObject object with
  | none => .error .invalid
  | some (body, _) =>
    if name = "RESP".toList then respLoop { command := some name } body
    else commandLoop { command := some name } body

/-- A message is loaded by what its outer object turns out to be. -/
theorem loadMessage_of_object {json object rest body : Str}
    (hobj : jsonGetObject json = some (object, rest))
    (hname : jsonGetName object = some (name, body)) (hup : uppercasestring name = name)
    (hne : name ≠ "ERROR".toList) : loadMessage json = loadBody name body := by
  rw [loadMessage]
  simp only [hobj, hname, hup, if_neg hne]
  rfl

/-- A message whose body leaves the scan where it started is loaded from that body. -/
theorem loadMessage_envelope {body : Str} {b : Bool} (hplain : ∀ c ∈ name, c ≠ '"' ∧ c ≠ '\\')
    (hup : uppercasestring name = name) (hne : name ≠ "ERROR".toList)
    (hbody : scanText (false, 0, false) body = some (false, 0, b)) :
    loadMessage (envelope name body) =
      if name = "RESP".toList then respLoop { command := some name } body
      else commandLoop { command := some name } body := by
  have hnest : ∀ t, quotedName name ++ '{' :: (body ++ ['}', t]) =
      (quotedName name ++ '{' :: (body ++ ['}'])) ++ t :: [] := by simp
  have hscan : scanText (false, 0, false) (quotedName name ++ '{' :: (body ++ ['}'])) =
      some (false, 0, false) := by
    rw [scanText_name hplain, scanText_cons, scanStep_open, bind_some, scanText_append,
      scanText_succ hbody]
    rfl
  have hobj : jsonGetObject (envelope name body) =
      some (quotedName name ++ '{' :: (body ++ ['}']), []) := by
    rw [envelope, hnest]
    exact jsonGetObject_of_scanText hscan []
  have hname : jsonGetName (quotedName name ++ '{' :: (body ++ ['}'])) =
      some (name, '{' :: (body ++ ['}'])) :=
    jsonGetName_quotedName hplain (skipChars_cons_of_notMem (by decide) _)
  rw [loadMessage_of_object hobj hname hup hne, loadBody, jsonGetObject_of_scanText hbody []]

/-! ### Bodies -/

/-- What stands before the first name does not matter. -/
theorem commandLoop_congr {m : Msg} {s : Str} (h : jsonGetName s = jsonGetName t) :
    commandLoop m s = commandLoop m t := by
  cases hn : jsonGetName t with
  | none => rw [commandLoop_of_none (h.trans hn), commandLoop_of_none hn]
  | some p =>
    obtain ⟨name, rest⟩ := p
    rw [commandLoop_of_some (h.trans hn), commandLoop_of_some hn]

theorem respLoop_congr {m : Msg} {s : Str} (h : jsonGetName s = jsonGetName t) :
    respLoop m s = respLoop m t := by
  cases hn : jsonGetName t with
  | none => rw [respLoop_of_none (h.trans hn), respLoop_of_none hn]
  | some p =>
    obtain ⟨name, rest⟩ := p
    rw [respLoop_of_some (h.trans hn), respLoop_of_some hn]

theorem jsonGetName_versionText (v : ℤ) (rest : Str) :
    jsonGetName (versionText v ++ rest) = some ("VERSION".toList, int64tostr v ++ ',' :: rest) := by
  have h := jsonGetName_quotedName (name_plain .version) (nameEnd_value (.num v) (',' :: rest))
  rw [versionText, append_assoc, append_assoc]
  exact h

theorem commandLoop_versionText {v : ℤ} (hv : IsInt64 v) (m : Msg) (rest : Str) :
    commandLoop m (versionText v ++ rest) = commandLoop { m with version := v } rest := by
  rw [commandLoop_of_some (jsonGetName_versionText v rest), if_pos (by decide),
    jsonGetNum_int64tostr hv (valueEnd_cons (Or.inl rfl) rest)]
  exact commandLoop_congr (jsonGetName_skip (by decide) rest)

theorem respLoop_versionText {v : ℤ} (hv : IsInt64 v) (m : Msg) (rest : Str) :
    respLoop m (versionText v ++ rest) = respLoop { m with version := v } rest := by
  rw [respLoop_of_some (jsonGetName_versionText v rest), if_neg (by decide), if_pos (by decide),
    jsonGetNum_int64tostr hv (valueEnd_cons (Or.inl rfl) rest)]
  exact respLoop_congr (jsonGetName_skip (by decide) rest)

theorem respLoop_alertText (alert : Option Str) (m : Msg) (hm : m.alert = none) (rest : Str) :
    respLoop m (alertText alert ++ rest) = respLoop { m with alert := alert } rest := by
  cases alert with
  | none =>
    rw [alertText, nil_append, ← hm]
  | some a =>
    have hname : jsonGetName (alertText (some a) ++ rest) =
        some ("ALERT".toList, quoted a ++ ',' :: rest) := by
      have h := jsonGetName_quotedName (name_plain .alert) (nameEnd_value (.string a) (',' :: rest))
      rw [alertText, append_assoc, append_assoc]
      exact h
    rw [respLoop_of_some hname, if_neg (by decide), if_neg (by decide), if_neg (by decide),
      if_pos (by decide), jsonGetString_quoted]
    exact respLoop_congr (jsonGetName_skip (by decide) rest)

theorem jsonGetObject_itemText (h : Framed (allStrings ws)) (rest : Str) :
    jsonGetObject (itemText ws ++ rest) = some (fieldsText ws, rest) := by
  rw [itemText, cons_append, append_assoc]
  exact jsonGetObject_of_scanText (h.scanText_fieldsText 0) rest

/-- The items of a response are loaded back when each of them is framed. -/
theorem itemArrayLoop_itemsText (h : ∀ ws ∈ items, Framed (allStrings ws)) (rest : Str) :
    itemArrayLoop (itemsText items ++ ']' :: rest) =
      some (items.map (·.map WireField.received), ']' :: rest) := by
  cases items with
  | nil => exact itemArrayLoop_of_none rfl
  | cons ws items =>
    rw [itemsText, map_cons, commaJoin, append_assoc]
    induction items generalizing ws with
    | nil =>
      rw [map_nil, flatMap_nil, nil_append,
        itemArrayLoop_of_some (jsonGetObject_itemText (h ws mem_cons_self) _),
        loadFields_fieldsText_nil, bind_some,
        skipToSeparator_of_sep (Or.inr rfl), if_neg (by simp)]
      rfl
    | cons us items ih =>
      rw [map_cons, flatMap_cons, cons_append, cons_append, append_assoc,
        itemArrayLoop_of_some (jsonGetObject_itemText (h ws mem_cons_self) _),
        loadFields_fieldsText_nil, bind_some,
        skipToSeparator_of_sep (Or.inl rfl), head?_cons, if_pos rfl, tail_cons,
        ih us fun vs hvs ↦ h vs (mem_cons_of_mem _ hvs)]
      rfl

/-- Items that are framed are loaded back. -/
theorem loadItemArray_itemsText (h : ∀ ws ∈ items, Framed (allStrings ws)) (rest : Str) :
    loadItemArray ('[' :: (itemsText items ++ ']' :: rest)) =
      .ok (items.map (·.map WireField.received), rest) := by
  rw [loadItemArray, skipWhitespace_cons_of_not_blank (by decide)]
  simp only [itemArrayLoop_itemsText h]

/-! ### Messages that are framed -/

/-- The message a request stands for. -/
def requestMsg (name : CommandName) (version : ℤ) (ws : List WireField) : Msg where
  command := some name.chars
  version := version
  items := [ws.map WireField.received]

/-- The message a response stands for. -/
def responseMsg (head : ResponseHead) (version : ℤ) (items : List (List WireField)) : Msg where
  command := some head.name
  version := version
  items := items.map (·.map WireField.received)
  alert := head.alertArg

/-- A framed request is loaded back. -/
theorem loadMessage_requestText_of_framed {name : CommandName} {version : ℤ} (hv : IsInt64 version)
    (herr : name.chars ≠ "ERROR".toList) (hresp : name.chars ≠ "RESP".toList)
    (h : Framed (allStrings ws)) :
    loadMessage (requestText name version ws) = .ok (requestMsg name version ws) := by
  have hbody : scanText (false, 0, false) (requestBody version ws) = some (false, 0, false) := by
    have hitem := scanText_itemText_of_framed h 0 []
    rw [append_nil] at hitem
    rw [requestBody, append_assoc, scanText_versionText, scanText_quotedName (by decide), hitem]
    rfl
  have hname : jsonGetName (quotedName "FIELDS".toList ++ itemText ws) =
      some ("FIELDS".toList, itemText ws) :=
    jsonGetName_quotedName (by decide) (skipChars_cons_of_notMem (by decide) _)
  have hobj := jsonGetObject_itemText h []
  rw [append_nil] at hobj
  rw [requestText_eq, loadMessage_envelope name.plain (uppercasestring_of_upper name.upper)
    herr hbody, if_neg hresp, requestBody, append_assoc, commandLoop_versionText hv,
    commandLoop_of_some hname, if_neg (by decide), if_neg (by decide), if_pos (by decide), hobj]
  simp only [loadFields_fieldsText_nil]
  exact commandLoop_of_none jsonGetName_nil

theorem scanText_itemsText_of_framed (h : ∀ ws ∈ items, Framed (allStrings ws)) (d : ℕ) (t : Str) :
    scanText (false, d, false) (itemsText items ++ t) = scanText (false, d, false) t := by
  cases items with
  | nil => rfl
  | cons ws items =>
    rw [itemsText, map_cons, commaJoin, append_assoc,
      scanText_itemText_of_framed (h ws mem_cons_self)]
    have htail : ∀ ws ∈ items, Framed (allStrings ws) :=
      fun vs hvs ↦ h vs (mem_cons_of_mem _ hvs)
    clear h
    induction items with
    | nil => rfl
    | cons us items ih =>
      rw [map_cons, flatMap_cons, append_assoc, cons_append, scanText_cons,
        scanStep_plain (by decide), bind_some]
      exact (scanText_itemText_of_framed (htail us mem_cons_self) d _).trans
        (ih fun vs hvs ↦ htail vs (mem_cons_of_mem _ hvs))

theorem scanText_alertText {alert : Option Str}
    (h : ∀ a, alert = some a → endsInBackslash a = false) (d : ℕ) (t : Str) :
    scanText (false, d, false) (alertText alert ++ t) = scanText (false, d, false) t := by
  cases alert with
  | none => rfl
  | some a =>
    have hstep : stringStep (false, d) a = some (false, d) := by
      simp [stringStep, h a rfl]
    rw [alertText, append_assoc, append_assoc, scanText_quotedName (by decide),
      scanText_append, scanText_quoted, hstep]
    rfl

/-- The conditions under which a response is framed: its alert does not end in a backslash, and the
strings of each item leave the item's brace visible. -/
def ResponseFramed (head : ResponseHead) (items : List (List WireField)) : Prop :=
  head.name ≠ "ERROR".toList ∧ (∀ a, head.alertArg = some a → endsInBackslash a = false) ∧
    ∀ ws ∈ items, Framed (allStrings ws)

theorem ResponseHead.name_plain (head : ResponseHead) : ∀ c ∈ head.name, c ≠ '"' ∧ c ≠ '\\' := by
  cases head with
  | resp a => exact show ∀ c ∈ "RESP".toList, c ≠ '"' ∧ c ≠ '\\' by decide
  | named n => exact n.plain

theorem ResponseHead.name_upper (head : ResponseHead) : uppercasestring head.name = head.name := by
  cases head with
  | resp a => exact show uppercasestring "RESP".toList = "RESP".toList by decide
  | named n => exact uppercasestring_of_upper n.upper

theorem loadMessage_responseText_of_framed {head : ResponseHead} {version : ℤ}
    (hv : IsInt64 version) (h : ResponseFramed head items) :
    loadMessage (responseText head version items) = .ok (responseMsg head version items) := by
  obtain ⟨herr, halert, hitems⟩ := h
  have hbody :
      scanText (false, 0, false) (responseBody head version items) = some (false, 0, false) := by
    rw [responseBody, append_assoc, append_assoc, scanText_versionText,
      scanText_alertText halert, scanText_quotedName (by decide), scanText_cons,
      scanStep_plain (by decide), bind_some]
    exact scanText_itemsText_of_framed hitems 0 [']']
  have hname : jsonGetName (quotedName "DATA".toList ++ '[' :: (itemsText items ++ [']'])) =
      some ("DATA".toList, '[' :: (itemsText items ++ [']'])) :=
    jsonGetName_quotedName (by decide) (skipChars_cons_of_notMem (by decide) _)
  rw [responseText_eq, loadMessage_envelope head.name_plain head.name_upper herr hbody,
    responseBody, append_assoc, append_assoc]
  split
  · rw [respLoop_versionText hv, respLoop_alertText _ _ rfl, respLoop_of_some hname,
      if_neg (by decide), if_neg (by decide), if_pos (by decide), loadItemArray_itemsText hitems []]
    exact respLoop_of_none jsonGetName_nil
  · next hresp =>
    -- only an unnamed response carries an alert, and its name is the response name
    have hnone : head.alertArg = none := by
      cases head with
      | resp a => exact absurd rfl hresp
      | named n => rfl
    rw [commandLoop_versionText hv, hnone, alertText, nil_append, commandLoop_of_some hname,
      if_neg (by decide), if_pos (by decide), loadItemArray_itemsText hitems []]
    simp only [responseMsg, hnone]
    exact commandLoop_of_none jsonGetName_nil

end Jers
