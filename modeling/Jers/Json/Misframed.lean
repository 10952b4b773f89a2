import Jers.Json.RoundTrip

/-!
# Requests that are not framed

When the strings of an object are not framed, the scan stops inside a string, or it goes past the
object's own brace. In the first case the piece that is cut off ends within a string, and no reader
accepts it. In the second case the braces that close the request are not enough for the scan of the
outermost object. Either way the request is refused, which settles which requests are loaded back.
-/

namespace Jers

open List Option

/-! ### Cut pieces -/

/-- The scan stops within `t`, after the piece `t₁`, whatever follows `t`. -/
def Cut (st : ScanState) (t t₁ : Str) : Prop := ∀ rest, ∃ r, scanFrom st (t ++ rest) = some (t₁, r)

theorem Cut.append_right {st : ScanState} {t t₁ : Str} (h : Cut st t t₁) (u : Str) :
    Cut st (t ++ u) t₁ := by
  intro rest
  rw [append_assoc]
  exact h (u ++ rest)

theorem Cut.append_left {st st' : ScanState} {t u u₁ : Str} (ht : scanText st t = some st')
    (h : Cut st' u u₁) : Cut st (t ++ u) (t ++ u₁) := by
  intro rest
  obtain ⟨r, hr⟩ := h rest
  exact ⟨r, by rw [append_assoc, scanFrom_append ht, hr]; rfl⟩

theorem Cut.cons {st st' : ScanState} {c : Char} {u u₁ : Str} (hc : scanStep st c = some st')
    (h : Cut st' u u₁) : Cut st (c :: u) (c :: u₁) := by
  have ht : scanText st [c] = some st' := by rw [scanText_cons, hc]; rfl
  exact Cut.append_left ht h

/-- A string value that is cut is not read. -/
theorem cut_quoted {q : Bool} {d : ℕ} {s : Str} (h : stringStep (q, d) s = none) :
    ∃ t₁, Cut (q, d, false) (quoted s) ('"' :: t₁) ∧ scanString t₁ = none := by
  obtain ⟨s₁, s₂, -, hs⟩ := scanFrom_quoted_of_none h
  exact ⟨s₁.flatMap jsonEscapeChar, fun rest ↦ ⟨_, hs rest⟩, scanString_escape_none s₁⟩

theorem scanStrings_cons (st : Bool × ℕ) (s : Str) (ss : List Str) :
    scanStrings st (s :: ss) = (stringStep st s).bind fun st' ↦ scanStrings st' ss := by
  rw [scanStrings, foldlM_cons]
  rfl

variable {st : Bool × ℕ} {ws : List WireField} {name : CommandName} {version : ℤ}

theorem scanText_quoted_of_some {st' : Bool × ℕ} {s : Str} (h : stringStep st s = some st') :
    scanText (st.1, st.2, false) (quoted s) = some (st'.1, st'.2, false) := by
  rw [scanText_quoted, h]
  rfl

theorem commaJoin_cons_cons (t u : Str) (us : List Str) :
    commaJoin (t :: u :: us) = t ++ ',' :: commaJoin (u :: us) := by
  simp [commaJoin]

/-- Array elements that are cut are not read. -/
theorem cut_elems {ss : List Str} (h : scanStrings st ss = none) :
    ∃ t₁, Cut (st.1, st.2, false) (commaJoin (ss.map quoted)) t₁ ∧ stringArrayLoop t₁ = none := by
  induction ss generalizing st with
  | nil => exact absurd h (by simp [scanStrings])
  | cons s ss ih =>
    rw [scanStrings_cons] at h
    cases hs : stringStep st s with
    | none =>
      obtain ⟨t₁, hcut, hscan⟩ := cut_quoted hs
      refine ⟨'"' :: t₁, hcut.append_right _, ?_⟩
      rw [stringArrayLoop_of_none (by rw [jsonGetString_quote, hscan]; rfl)]
      rfl
    | some st' =>
      rw [hs, bind_some] at h
      obtain ⟨t₁, hcut, hloop⟩ := ih h
      cases ss with
      | nil => exact absurd h (by simp [scanStrings])
      | cons u us =>
        refine ⟨quoted s ++ ',' :: t₁, ?_, ?_⟩
        · rw [map_cons, map_cons, commaJoin_cons_cons]
          exact Cut.append_left (scanText_quoted_of_some hs)
            (Cut.cons (scanStep_plain (by decide) _ _) hcut)
        · rw [stringArrayLoop_of_comma (jsonGetString_quoted s _)
            (skipToSeparator_of_sep (Or.inl rfl) _), hloop]
          rfl

/-- A field that is cut is not loaded. -/
theorem cut_field {w : WireField} (h : scanStrings st w.strings = none) :
    ∃ t₁, Cut (st.1, st.2, false) w.text t₁ ∧ loadFields t₁ = none := by
  have hfield : ∀ v₁, NameEnd v₁ → readValue w.field v₁ = none →
      loadFields (quotedName w.field.name ++ v₁) = none := by
    intro v₁ hend hval
    rw [loadFields_of_some (jsonGetName_quotedName (name_plain w.field) hend), name_upper,
      fieldtonum_name, bind_some, hval, bind_none]
  have hname :
      scanText (st.1, st.2, false) (quotedName w.field.name) = some (st.1, st.2, false) := by
    have hscan := scanText_quotedName (isPlain_of_mem_name w.field) st.1 st.2 []
    rwa [append_nil] at hscan
  have htype := w.type_eq
  rw [WireField.strings] at h
  rw [WireField.text]
  cases hv : w.value with
  | bool b | num n => exact absurd h (by simp [hv, WireValue.strings, scanStrings])
  | string s =>
    rw [hv, WireValue.strings, scanStrings_cons] at h
    have hs : stringStep st s = none := by
      cases hs : stringStep st s with
      | none => rfl
      | some st' => rw [hs] at h; exact absurd h (by simp [scanStrings])
    obtain ⟨t₁, hcut, hscan⟩ := cut_quoted hs
    refine ⟨quotedName w.field.name ++ '"' :: t₁, Cut.append_left hname hcut,
      hfield _ (skipChars_cons_of_notMem (by decide) _) ?_⟩
    rw [hv, WireValue.type] at htype
    rw [readValue, ← htype]
    simp only [jsonGetString_quote, hscan, map_none]
  | stringarray ss =>
    rw [hv, WireValue.strings] at h
    obtain ⟨t₁, hcut, hloop⟩ := cut_elems h
    refine ⟨quotedName w.field.name ++ '[' :: t₁, ?_,
      hfield _ (skipChars_cons_of_notMem (by decide) _) ?_⟩
    · exact Cut.append_left hname
        (Cut.cons (scanStep_plain (by decide) _ _) (hcut.append_right [']']))
    · rw [hv, WireValue.type] at htype
      rw [readValue, ← htype]
      simp only [jsonGetStringArray,
        skipWhitespace_cons_of_not_blank (show isBlank '[' = false by rfl), hloop, map_none]

/-- **Fields that are cut are not loaded.** -/
theorem cut_fieldsText (h : scanStrings st (allStrings ws) = none) :
    ∃ t₁, Cut (st.1, st.2, false) (fieldsText ws) t₁ ∧ loadFields t₁ = none := by
  induction ws generalizing st with
  | nil => exact absurd h (by simp [scanStrings, allStrings])
  | cons w ws ih =>
    rw [allStrings, flatMap_cons, ← allStrings, scanStrings, foldlM_append] at h
    cases hw : scanStrings st w.strings with
    | none =>
      obtain ⟨t₁, hcut, hload⟩ := cut_field hw
      exact ⟨t₁, hcut.append_right _, hload⟩
    | some st' =>
      have h' : scanStrings st' (allStrings ws) = none := by
        rw [scanStrings] at hw
        rw [hw] at h
        exact h
      obtain ⟨t₁, hcut, hload⟩ := ih h'
      cases ws with
      | nil => exact absurd h' (by simp [scanStrings, allStrings])
      | cons v vs =>
        refine ⟨w.text ++ ',' :: t₁, ?_, ?_⟩
        · rw [fieldsText, map_cons, map_cons, commaJoin_cons_cons]
          refine Cut.append_left ?_ (Cut.cons (scanStep_plain (by decide) _ _) hcut)
          rw [scanText_field, hw]
          rfl
        · rw [loadFields_field w (valueEnd_cons (Or.inl rfl) t₁),
            loadFields_congr (jsonGetName_skip (by decide) t₁), hload]
          rfl

/-! ### What an envelope is loaded from -/

/-- A message in an envelope is loaded from the piece of its body that the scan of the inner object
finds; the scan of the outer object has then stopped too. -/
theorem of_loadMessage_envelope {name body : Str} {m : Msg} (hplain : ∀ c ∈ name, c ≠ '"' ∧
    c ≠ '\\') (hup : uppercasestring name = name) (h : loadMessage (envelope name body) = .ok m) :
    name ≠ "ERROR".toList ∧ (scanFrom (false, 1, false) (body ++ ['}', '}'])).isSome = true ∧
      ∃ o₁ r, scanFrom (false, 0, false) (body ++ ['}', '}']) = some (o₁, r) ∧
        (if name = "RESP".toList then respLoop { command := some name } o₁
          else commandLoop { command := some name } o₁) = .ok m := by
  have hpre : scanText (false, 0, false) (quotedName name ++ ['{']) = some (false, 1, false) := by
    rw [scanText_name hplain]
    rfl
  have hobj : jsonGetObject (envelope name body) =
      (scanFrom (false, 1, false) (body ++ ['}', '}'])).map
        (Prod.map ((quotedName name ++ ['{']) ++ ·) id) := by
    rw [envelope, jsonGetObject, skipWhitespace_cons_of_not_blank (by decide)]
    simp only [scanObject_eq_scanFrom]
    rw [← scanFrom_append hpre, append_assoc]
    rfl
  cases hout : scanFrom (false, 1, false) (body ++ ['}', '}']) with
  | none =>
    rw [loadMessage, hobj, hout] at h
    simp at h
  | some p =>
    obtain ⟨o, r⟩ := p
    obtain ⟨o₁, o₂, rfl, hin, hfull⟩ := scanFrom_nested hout
    rw [hout] at hobj
    have hname : jsonGetName (quotedName name ++ ['{'] ++ (o₁ ++ '}' :: o₂)) =
        some (name, '{' :: (o₁ ++ '}' :: o₂)) := by
      rw [append_assoc]
      exact jsonGetName_quotedName hplain (skipChars_cons_of_notMem (by decide) _)
    by_cases herr : name = "ERROR".toList
    · -- an error message must carry a string, not an object
      rw [loadMessage, hobj] at h
      simp only [map_some, Prod.map_apply, hname, hup, if_pos herr] at h
      cases h
    · refine ⟨herr, rfl, o₁, _, hfull, ?_⟩
      rw [loadMessage_of_object (hobj.trans rfl) hname hup herr, loadBody, jsonGetObject,
        skipWhitespace_cons_of_not_blank (by decide)] at h
      simp only [scanObject_eq_scanFrom] at h
      rwa [show ('{' == '\\') = false from rfl, hin] at h

/-! ### Requests -/

/-- The part of a request before its fields. -/
def requestPrefix (version : ℤ) : Str :=
  versionText version ++ (quotedName "FIELDS".toList ++ ['{'])

theorem requestBody_eq (version : ℤ) (ws : List WireField) : requestBody version ws ++ ['}', '}'] =
      requestPrefix version ++ (fieldsText ws ++ ['}', '}', '}']) := by
  simp [requestBody, requestPrefix, itemText]

theorem scanFrom_requestPrefix (version : ℤ) (d : ℕ) (t : Str) :
    scanFrom (false, d, false) (requestPrefix version ++ t) =
      (scanFrom (false, d + 1, false) t).map (Prod.map (requestPrefix version ++ ·) id) := by
  refine scanFrom_append ?_ t
  rw [requestPrefix, scanText_versionText, scanText_quotedName (by decide)]
  rfl

theorem jsonGetName_requestFields (t : Str) :
    jsonGetName (quotedName "FIELDS".toList ++ '{' :: t) = some ("FIELDS".toList, '{' :: t) :=
  jsonGetName_quotedName (by decide) (skipChars_cons_of_notMem (by decide) _)

/-- Three closing braces end the scan at depth two only when nothing else is open. -/
theorem eq_of_scanFrom_braces {q : Bool} {d : ℕ}
    (h : (scanFrom (q, d + 2, false) ['}', '}', '}']).isSome = true) : q = false ∧ d = 0 := by
  cases q with
  | true => exact absurd h (by simp [scanFrom_cons, scanStep, scanFrom_nil])
  | false =>
    refine ⟨rfl, ?_⟩
    by_contra hd
    obtain ⟨k, rfl⟩ := Nat.exists_eq_succ_of_ne_zero hd
    rw [scanFrom_of_some (scanStep_close _ _), scanFrom_of_some (scanStep_close _ _),
      scanFrom_of_some (scanStep_close _ _), scanFrom_nil] at h
    simp at h

/-- A request whose strings are not framed is not loaded. -/
theorem framed_of_loadMessage_requestText {m : Msg} (hv : IsInt64 version)
    (hresp : name.chars ≠ "RESP".toList) (h : loadMessage (requestText name version ws) = .ok m) :
    Framed (allStrings ws) := by
  rw [requestText_eq] at h
  obtain ⟨-, hout, o₁, r, hin, h⟩ :=
    of_loadMessage_envelope name.plain (uppercasestring_of_upper name.upper) h
  rw [requestBody_eq, scanFrom_requestPrefix, isSome_map] at hout
  rw [requestBody_eq, scanFrom_requestPrefix] at hin
  obtain ⟨u, hu, rfl⟩ := map_piece_eq_some hin
  obtain ⟨p₁, p₂, rfl, hp, hfull⟩ := scanFrom_nested hu
  cases hs : scanStrings (false, 0) (allStrings ws) with
  | none =>
    -- the fields are cut within a string
    obtain ⟨t₁, hcut, hfields⟩ := cut_fieldsText hs
    obtain ⟨r', hr'⟩ := hcut ['}', '}', '}']
    obtain ⟨rfl, -⟩ := Prod.mk.inj (mem_unique hfull hr')
    have hobj : jsonGetObject ('{' :: (p₁ ++ '}' :: p₂)) = some (p₁, p₂) := by
      rw [jsonGetObject, skipWhitespace_cons_of_not_blank (by decide)]
      simp only [scanObject_eq_scanFrom]
      exact hp
    rw [if_neg hresp, requestPrefix, append_assoc, append_assoc,
      commandLoop_versionText hv, singleton_append,
      commandLoop_of_some (jsonGetName_requestFields _), if_neg (by decide), if_neg (by decide),
      if_pos (by decide), hobj] at h
    simp only [hfields] at h
    simp at h
  | some st =>
    -- the scan of the outer object has to end with the three braces
    have hscan : scanText (false, 2, false) (fieldsText ws) = some (st.1, st.2 + 2, false) := by
      refine scanText_succ (scanText_succ ?_)
      rw [scanText_fieldsText, hs]
      rfl
    rw [scanFrom_append hscan, isSome_map] at hout
    obtain ⟨hq, hd⟩ := eq_of_scanFrom_braces hout
    rw [Framed, hs, ← hq, ← hd]

/-- A request named like a response is taken for one, and its fields are passed over. -/
theorem items_of_loadMessage_resp {m : Msg} (hv : IsInt64 version)
    (hresp : name.chars = "RESP".toList) (h : loadMessage (requestText name version ws) = .ok m) :
    m.items = [] := by
  rw [requestText_eq] at h
  obtain ⟨-, -, o₁, r, hin, h⟩ :=
    of_loadMessage_envelope name.plain (uppercasestring_of_upper name.upper) h
  rw [requestBody_eq, scanFrom_requestPrefix] at hin
  obtain ⟨u, -, rfl⟩ := map_piece_eq_some hin
  rw [if_pos hresp, requestPrefix, append_assoc, append_assoc,
    respLoop_versionText hv, singleton_append, respLoop_of_some (jsonGetName_requestFields _),
    if_neg (by decide), if_neg (by decide), if_neg (by decide), if_neg (by decide),
    respLoop_of_none (jsonGetName_of_ne (by decide) (by decide) (by decide) _)] at h
  rw [← Except.ok.inj h]

/-- **Requests.** A request is loaded back exactly when its name is not one of the two reserved
names and its strings are framed. -/
theorem loadMessage_requestText_eq_iff (hv : IsInt64 version) :
    loadMessage (requestText name version ws) = .ok (requestMsg name version ws) ↔
      name.chars ≠ "ERROR".toList ∧ name.chars ≠ "RESP".toList ∧ Framed (allStrings ws) := by
  constructor
  · intro h
    have hresp : name.chars ≠ "RESP".toList := by
      intro hresp
      have hitems := items_of_loadMessage_resp hv hresp h
      exact absurd hitems (by simp [requestMsg])
    refine ⟨?_, hresp, framed_of_loadMessage_requestText hv hresp h⟩
    rw [requestText_eq] at h
    exact (of_loadMessage_envelope name.plain (uppercasestring_of_upper name.upper) h).1
  · rintro ⟨herr, hresp, hframed⟩
    exact loadMessage_requestText_of_framed hv herr hresp hframed

end Jers
