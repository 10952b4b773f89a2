import Jers.Json.Quotes

/-!
# Which messages are loaded back

The writer and the loader agree on a message exactly when the strings of each object in it are
framed and its name is not reserved. For requests this was shown by following the scan; for
responses, where a scan that misses a brace runs on into the next items, the count of quotes shows
that the items behind can no longer be loaded in full.
-/

namespace Jers

open List Option

/-! ### A scan that goes past its item -/

/-- What follows an item in a response: the later items, the bracket and the braces. -/
def afterItem (items : List (List WireField)) : Str :=
  (items.map itemText).flatMap (',' :: ·) ++ [']', '}', '}']

theorem itemsText_cons (ws : List WireField) (items : List (List WireField)) :
    itemsText (ws :: items) ++ [']', '}', '}'] = itemText ws ++ afterItem items := by
  rw [itemsText, map_cons, commaJoin, append_assoc, afterItem]

theorem afterItem_cons (ws : List WireField) (items : List (List WireField)) :
    afterItem (ws :: items) = ',' :: (itemText ws ++ afterItem items) := by
  simp [afterItem]

theorem loose_afterItem (items : List (List WireField)) :
    loose (afterItem items) = itemsWeight (receivedItems items) := by
  induction items with
  | nil => rfl
  | cons ws items ih =>
    rw [afterItem_cons, loose_cons_of_ne (by decide) (by decide), loose_itemText, ih]
    rfl

variable {items : List (List WireField)} {r rest d : Str} {version : ℤ} {ws : List WireField}
  {loaded added : List MsgItem} {head : ResponseHead}

/-- A scan that leaves an item with braces still open takes at least one quote of a later item with
it, if there are braces enough for the objects around the item. -/
theorem loose_lt_of_open {k : ℕ} {o : Str}
    (hout : (scanFrom (false, k + 2, false) (afterItem items)).isSome = true)
    (h : scanFrom (false, k, false) (afterItem items) = some (o, r)) :
    loose r < loose (afterItem items) := by
  induction items generalizing o with
  | nil =>
    -- only two braces are left, and three are needed
    have hnone : scanFrom (false, k + 2, false) (afterItem []) = none := by
      rw [afterItem, map_nil, flatMap_nil, nil_append,
        scanFrom_of_some (scanStep_plain (by decide) _ _), scanFrom_of_some (scanStep_close _ _),
        scanFrom_of_some (scanStep_close _ _), scanFrom_nil]
      rfl
    rw [hnone] at hout
    simp at hout
  | cons ws items ih =>
    have htext :
        afterItem (ws :: items) = ',' :: '{' :: (fieldsText ws ++ '}' :: afterItem items) := by
      rw [afterItem_cons, itemText]
      simp
    rw [htext, scanFrom_of_some (scanStep_plain (by decide) _ _),
      scanFrom_of_some (scanStep_open _ _)] at h
    obtain ⟨o', h, -⟩ := map_piece_eq_some h
    obtain ⟨o', h, -⟩ := map_piece_eq_some h
    rw [htext, loose_cons_of_ne (by decide) (by decide), loose_cons_of_ne (by decide) (by decide)]
    cases ws with
    | nil =>
      rw [htext, scanFrom_of_some (scanStep_plain (by decide) _ _), isSome_map,
        scanFrom_of_some (scanStep_open _ _), isSome_map] at hout
      rw [fieldsText, map_nil, commaJoin, nil_append] at h hout ⊢
      rw [scanFrom_of_some (scanStep_close _ _)] at h
      rw [scanFrom_of_some (scanStep_close _ _), isSome_map] at hout
      obtain ⟨o', h, -⟩ := map_piece_eq_some h
      rw [loose_cons_of_ne (by decide) (by decide)]
      exact ih hout h
    | cons w ws =>
      obtain ⟨t, ht⟩ : ∃ t, fieldsText (w :: ws) ++ '}' :: afterItem items = '"' :: t := by
        rw [fieldsText, map_cons, commaJoin, WireField.text, quotedName]
        exact ⟨_, rfl⟩
      rw [ht, scanFrom_of_some (scanStep_quote _ _ _)] at h
      obtain ⟨o', h, -⟩ := map_piece_eq_some h
      have hle := scanFrom_loose h
      rw [ht, loose_quote]
      change loose t = _ at hle
      omega

/-- **A scan that goes past an item swallows quotes.** If the strings of an item are neither framed
nor cut, the scan for its brace stops only after a quote of a later item. -/
theorem loose_lt_of_not_framed {st : Bool × ℕ} {o : Str}
    (hs : scanStrings (false, 0) (allStrings ws) = some st) (hne : st ≠ (false, 0))
    (hout : (scanFrom (false, 2, false) (fieldsText ws ++ '}' :: afterItem items)).isSome = true)
    (h : scanFrom (false, 0, false) (fieldsText ws ++ '}' :: afterItem items) = some (o, r)) :
    loose r < loose (afterItem items) := by
  have hscan : scanText (false, 0, false) (fieldsText ws) = some (st.1, st.2, false) := by
    rw [scanText_fieldsText, hs]
    rfl
  rw [scanFrom_append hscan] at h
  rw [scanFrom_append (scanText_succ (scanText_succ hscan)), isSome_map] at hout
  obtain ⟨o', h, -⟩ := map_piece_eq_some h
  obtain ⟨q, d⟩ := st
  cases q with
  | true =>
    -- the scan is on the wrong side and has to change it
    have hstep : scanStep (true, d, false) '}' = some (true, d, false) := rfl
    rw [scanFrom_of_some hstep] at h
    obtain ⟨o', h, -⟩ := map_piece_eq_some h
    have heven := scanFrom_even h
    have hle := scanFrom_loose h
    simp only [Bool.toNat_true] at heven hle
    change loose (afterItem items) = _ at hle
    omega
  | false =>
    obtain ⟨k, rfl⟩ : ∃ k, d = k + 1 :=
      Nat.exists_eq_succ_of_ne_zero fun hd ↦ hne (by rw [hd])
    rw [scanFrom_of_some (scanStep_close _ _)] at h
    rw [scanFrom_of_some (scanStep_close _ _), isSome_map] at hout
    obtain ⟨o', h, -⟩ := map_piece_eq_some h
    exact loose_lt_of_open hout h

/-! ### Items -/

/-- One round of the item loop, with the quotes left for the later rounds. -/
theorem itemArrayLoop_round {pos obj p : Str} {items : List MsgItem}
    (ho : jsonGetObject pos = some (obj, p)) (h : itemArrayLoop pos = some (items, rest)) :
    ∃ item items', items = item :: items' ∧ loadFields obj = some item ∧
      itemsWeight items' + loose rest ≤ loose p := by
  have hsep : loose (skipToSeparator p) ≤ loose p := loose_skipToSeparator_le false p
  rw [itemArrayLoop_of_some ho] at h
  obtain ⟨item, hitem, h⟩ := bind_eq_some_iff.mp h
  split at h
  · next hc =>
    obtain ⟨items', h', rfl⟩ := map_piece_eq_some h
    obtain ⟨t, ht⟩ := head?_eq_some_iff.mp hc
    rw [ht, tail_cons] at h'
    rw [ht, loose_cons_of_ne (by decide) (by decide)] at hsep
    obtain ⟨e, -, hle, hrest⟩ := itemArrayLoop_loose h'
    exact ⟨item, items', rfl, hitem, by omega⟩
  · obtain ⟨rfl, rfl⟩ := Prod.mk.inj (some.inj h)
    exact ⟨item, [], rfl, hitem, by rw [show itemsWeight [] = 0 from rfl]; omega⟩

section

variable (hout : (scanFrom (false, 1, false) (itemText ws ++ afterItem items)).isSome = true)
  (hs : scanFrom (false, 0, false) (itemText ws ++ afterItem items) = some (d, r))
  (hl : itemArrayLoop d = some (loaded, rest)) (hadd : itemsWeight added ≤ loose rest)
  (heq : loaded ++ added = receivedItems (ws :: items))

include hout hs hl hadd heq

/-- If the items of a response are all loaded, the first of them is framed. -/
theorem framed_of_itemArrayLoop_cons : Framed (allStrings ws) := by
  have htext :
      itemText ws ++ afterItem items = '{' :: (fieldsText ws ++ '}' :: afterItem items) := by
    simp [itemText]
  rw [htext, scanFrom_of_some (scanStep_open _ _)] at hs
  rw [htext, scanFrom_of_some (scanStep_open _ _), isSome_map] at hout
  obtain ⟨u, hu, rfl⟩ := map_piece_eq_some hs
  obtain ⟨o, p, rfl, ho, hfull⟩ := scanFrom_nested hu
  have hobj : jsonGetObject ('{' :: (o ++ '}' :: p)) = some (o, p) := by
    rw [jsonGetObject, skipWhitespace_cons_of_not_blank (by decide)]
    simp only [scanObject_eq_scanFrom]
    exact ho
  obtain ⟨item, loaded', rfl, hitem, hle⟩ := itemArrayLoop_round hobj hl
  cases hst : scanStrings (false, 0) (allStrings ws) with
  | none =>
    -- the item is cut within a string
    obtain ⟨t₁, hcut, hfields⟩ := cut_fieldsText hst
    obtain ⟨r', hr'⟩ := hcut ('}' :: afterItem items)
    obtain ⟨rfl, -⟩ := Prod.mk.inj (mem_unique hfull hr')
    rw [hfields] at hitem
    simp at hitem
  | some st =>
    rw [Framed, hst]
    by_contra hne
    -- the later items have more quotes than are left for them
    have hlt := loose_lt_of_not_framed hst (fun h ↦ hne (by rw [h])) hout hfull
    have hrest : itemsWeight (loaded' ++ added) = itemsWeight (receivedItems items) :=
      congrArg itemsWeight (List.cons.inj heq).2
    have hbound : loose (p ++ '}' :: r) = loose p + loose r := by
      rw [loose, looseQuotes_append, looseQuotes_cons_of_ne (by decide)]
      rfl
    rw [loose_afterItem, ← hrest, itemsWeight_append] at hlt
    omega

/-- **Items.** If the items of a response are all loaded, each of them is framed. -/
theorem framed_of_itemArrayLoop : ∀ vs ∈ ws :: items, Framed (allStrings vs) := by
  induction items generalizing ws d loaded with
  | nil =>
    intro vs hvs
    rw [mem_singleton.mp hvs]
    exact framed_of_itemArrayLoop_cons hout hs hl hadd heq
  | cons us items ih =>
    have hw := framed_of_itemArrayLoop_cons hout hs hl hadd heq
    have hskip : ∀ k, scanText (false, k, false) (itemText ws ++ [',']) = some (false, k, false) :=
      fun k ↦ (scanText_itemText_of_framed hw k _).trans rfl
    have htext : itemText ws ++ afterItem (us :: items) =
        (itemText ws ++ [',']) ++ (itemText us ++ afterItem items) := by
      simp [afterItem_cons]
    rw [htext, scanFrom_append (hskip 0)] at hs
    rw [htext, scanFrom_append (hskip 1), isSome_map] at hout
    obtain ⟨d', hs', rfl⟩ := map_piece_eq_some hs
    rw [append_assoc, itemArrayLoop_of_some (jsonGetObject_itemText hw _),
      loadFields_fieldsText_nil, bind_some, singleton_append,
      skipToSeparator_of_sep (Or.inl rfl), head?_cons, if_pos rfl, tail_cons] at hl
    obtain ⟨loaded', hl', rfl⟩ := map_piece_eq_some hl
    have htail := ih hout hs' hl' (List.cons.inj heq).2
    intro vs hvs
    rcases mem_cons.mp hvs with rfl | hvs
    · exact hw
    · exact htail vs hvs

end

/-! ### Responses -/

/-- The part of a response before its items. -/
def responsePrefix (version : ℤ) (alert : Option Str) : Str :=
  versionText version ++ (alertText alert ++ (quotedName "DATA".toList ++ ['[']))

theorem responseBody_eq (head : ResponseHead) (version : ℤ) (items : List (List WireField)) :
    responseBody head version items ++ ['}', '}'] =
      responsePrefix version head.alertArg ++ (itemsText items ++ [']', '}', '}']) := by
  simp [responseBody, responsePrefix]

/-- The scan over what stands before the items is on the wrong side afterwards exactly when the
alert ends in a backslash. -/
theorem scanText_responsePrefix (version : ℤ) (alert : Option Str) (d : ℕ) :
    scanText (false, d, false) (responsePrefix version alert) =
      some (alert.elim false endsInBackslash, d, false) := by
  rw [responsePrefix, scanText_versionText]
  cases alert with
  | none =>
    rw [alertText, nil_append, scanText_quotedName (by decide)]
    rfl
  | some a =>
    have hstep : stringStep (false, d) a = some (endsInBackslash a, d) := rfl
    rw [alertText, append_assoc, append_assoc, scanText_quotedName (by decide),
      scanText_append, scanText_quoted, hstep, map_some, bind_some,
      singleton_append, scanText_cons, scanStep_plain (by decide), bind_some,
      scanText_quotedName (by decide)]
    rfl

theorem jsonGetName_responseData (t : Str) :
    jsonGetName (quotedName "DATA".toList ++ '[' :: t) = some ("DATA".toList, '[' :: t) :=
  jsonGetName_quotedName (by decide) (skipChars_cons_of_notMem (by decide) _)

/-- What a loaded response is made of: the items of the data array, and items that a loop which went
astray found later. -/
theorem items_of_loadResponse {m : Msg} (hv : IsInt64 version)
    (h : (if head.name = "RESP".toList then
        respLoop { command := some head.name } (responsePrefix version head.alertArg ++ d)
      else commandLoop { command := some head.name } (responsePrefix version head.alertArg ++ d)) =
        .ok m) :
    ∃ loaded rest added, itemArrayLoop d = some (loaded, rest) ∧ m.items = loaded ++ added ∧
      (added = [] ∨ itemsWeight added + 1 ≤ loose rest) := by
  have hdata : ∃ loaded rest added, loadItemArray ('[' :: d) = .ok (loaded, rest) ∧
      m.items = loaded ++ added ∧ Affords rest added := by
    rw [responsePrefix, append_assoc, append_assoc, append_assoc, singleton_append] at h
    split at h
    · rw [respLoop_versionText hv, respLoop_alertText _ _ rfl,
        respLoop_of_some (jsonGetName_responseData d), if_neg (by decide), if_neg (by decide),
        if_pos (by decide)] at h
      split at h
      · simp at h
      · next loaded rest hl =>
        obtain ⟨added, heq, hadd⟩ := respLoop_affords h
        exact ⟨loaded, rest, added, hl, heq, hadd⟩
    · next hresp =>
      have hnone : head.alertArg = none := by
        cases head with
        | resp a => exact absurd rfl hresp
        | named n => rfl
      rw [commandLoop_versionText hv, hnone, alertText, nil_append,
        commandLoop_of_some (jsonGetName_responseData d), if_neg (by decide),
        if_pos (by decide)] at h
      split at h
      · simp at h
      · next loaded rest hl =>
        obtain ⟨added, heq, hadd⟩ := commandLoop_affords h
        exact ⟨loaded, rest, added, hl, heq, hadd⟩
  obtain ⟨loaded, rest, added, hl, heq, hadd⟩ := hdata
  rw [loadItemArray, skipWhitespace_cons_of_not_blank (by decide)] at hl
  simp only at hl
  split at hl
  · simp at hl
  · simp at hl
  · next c r hloop =>
    obtain ⟨rfl, rfl⟩ := Prod.mk.inj (Except.ok.inj hl)
    have hlast : loose r ≤ loose (c :: r) + 1 := loose_le_cons_succ false c r
    exact ⟨_, _, added, hloop, heq, hadd.imp id fun h ↦ by omega⟩

/-- A response that is loaded back has an alert that does not end in a backslash: otherwise the scan
takes an odd number of the quotes of the items, and the items take an even number. -/
theorem alert_of_loaded {alert : Option Str} (hs : scanFrom (false, 0, false)
      (responsePrefix version alert ++ (itemsText items ++ [']', '}', '}'])) =
        some (responsePrefix version alert ++ d, r)) (hl : itemArrayLoop d = some (loaded, rest))
    (hadd : added = [] ∨ itemsWeight added + 1 ≤ loose rest)
    (heq : loaded ++ added = receivedItems items) : alert.elim false endsInBackslash = false := by
  by_contra hbs
  rw [scanFrom_append (scanText_responsePrefix version alert 0), Bool.of_not_eq_false hbs] at hs
  obtain ⟨d', hd', hpre⟩ := map_piece_eq_some hs
  obtain rfl := append_cancel_left hpre
  have heven := scanFrom_even hd'
  have hle := scanFrom_loose hd'
  obtain ⟨e, he, hw, hrest⟩ := itemArrayLoop_loose hl
  have htotal : itemsWeight loaded + itemsWeight added = itemsWeight (receivedItems items) := by
    rw [← itemsWeight_append, heq]
  change loose (itemsText items ++ [']', '}', '}']) = loose d' + loose r at hle
  change (1 + loose d') % 2 = 0 at heven
  rw [loose_itemsText, show loose [']', '}', '}'] = 0 from rfl] at hle
  rcases hadd with rfl | hadd
  · rw [show itemsWeight [] = 0 from rfl] at htotal
    omega
  · omega

/-- A response that is loaded back is framed. -/
theorem responseFramed_of_loadMessage (hv : IsInt64 version)
    (h : loadMessage (responseText head version items) = .ok (responseMsg head version items)) :
    ResponseFramed head items := by
  rw [responseText_eq] at h
  obtain ⟨hne, hout, o₁, r, hin, h⟩ :=
    of_loadMessage_envelope head.name_plain head.name_upper h
  rw [responseBody_eq, scanFrom_append (scanText_responsePrefix _ _ 1), isSome_map] at hout
  rw [responseBody_eq] at hin
  have hin' := hin
  rw [scanFrom_append (scanText_responsePrefix _ _ 0)] at hin'
  obtain ⟨d, hd, rfl⟩ := map_piece_eq_some hin'
  obtain ⟨loaded, rest, added, hl, hitems, hadd⟩ := items_of_loadResponse hv h
  have heq : loaded ++ added = receivedItems items := hitems.symm
  have halert := alert_of_loaded hin hl hadd heq
  refine ⟨hne, fun a ha ↦ by simpa [ha] using halert, ?_⟩
  rw [halert] at hout hd
  cases items with
  | nil => exact fun ws hws ↦ absurd hws (not_mem_nil)
  | cons ws items =>
    rw [itemsText_cons] at hout hd
    refine framed_of_itemArrayLoop hout hd hl ?_ heq
    rcases hadd with rfl | hadd
    · exact Nat.zero_le _
    · omega

/-- **Responses.** A response is loaded back exactly when it is framed. -/
theorem loadMessage_responseText_eq_iff (hv : IsInt64 version) :
    loadMessage (responseText head version items) = .ok (responseMsg head version items) ↔
      ResponseFramed head items :=
  ⟨responseFramed_of_loadMessage hv, loadMessage_responseText_of_framed hv⟩

/-! ### Messages -/

/-- **Which messages are loaded back.** A request yields its command, its version and one item with
the fields written, in order, exactly when its name is not a reserved one and its strings are
framed; a response yields its items in order exactly when it is framed. -/
theorem loadMessage_eq_iff_framed (version : ℤ) (hv : IsInt64 version) :
    (∀ (name : CommandName) (ws : List WireField),
      loadMessage (requestText name version ws) = .ok (requestMsg name version ws) ↔
        name.chars ≠ "ERROR".toList ∧ name.chars ≠ "RESP".toList ∧ Framed (allStrings ws)) ∧
    ∀ (head : ResponseHead) (items : List (List WireField)),
      loadMessage (responseText head version items) = .ok (responseMsg head version items) ↔
        ResponseFramed head items :=
  ⟨fun _ _ ↦ loadMessage_requestText_eq_iff hv, fun _ _ ↦ loadMessage_responseText_eq_iff hv⟩

/-- The command that submits a job. -/
def addJobName : CommandName where
  chars := "ADD_JOB".toList
  upper := by decide
  plain := by decide

/-- A job name field. -/
def jobnameField (s : Str) : WireField where
  field := .jobname
  value := .string s
  ne_end := by decide
  type_eq := rfl
  isInt64 := fun _ h ↦ absurd h (by simp)

/-- Quotes, braces and inner backslashes in a job name do no harm. -/
theorem loadMessage_addJob_awkward_name :
    IsInt64 1 ∧ loadMessage (requestText addJobName 1 [jobnameField "a\"\x7d\\\x7bb".toList]) =
      .ok (requestMsg addJobName 1 [jobnameField "a\"\x7d\\\x7bb".toList]) :=
  ⟨by decide, ((loadMessage_eq_iff_framed 1 (by decide)).1 _ _).mpr
    ⟨by decide, by decide, by decide⟩⟩

/-- A job name that ends in a backslash makes the request unreadable. -/
theorem loadMessage_addJob_trailing_backslash :
    loadMessage (requestText addJobName 1 [jobnameField "C:\\".toList]) = .error .invalid := by
  decide +kernel

end Jers
