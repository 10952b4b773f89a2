import Jers.Json.Reader

/-!
# Loading messages

`load_message` of `fields.c`: the outer object has one name, which says whether the message is an
error, a response or a command, and an object with the version and the items. Every item is a list
of fields; a field is read according to its type in the field table.

Reading can end in three ways besides success. The text is refused (`invalid`, the source returns
`1`), a null string is handed to a library function that needs a string (`nullDeref`), or the cursor
steps over the terminating NUL because an array ended without a bracket (`overrun`).
-/

namespace Jers

open List Option

/-- The value of a received field; a string is absent where the text had `null`. -/
inductive FieldValue
  | bool (b : Bool)
  | string (s : Option Str)
  | num (n : ℤ)
  | stringarray (ss : List (Option Str))
  | map (kvs : List (Str × Option Str))
  deriving DecidableEq, Repr

/-- A received field: its number and its value. -/
structure MsgField where
  number : Field
  value : FieldValue
  deriving DecidableEq, Repr

/-- An item of a message, the fields in the order received. -/
abbrev MsgItem := List MsgField

/-- A loaded message, `msg_t`. `alert` is the text that `load_message` puts in the environment of
the process when the response carries one. -/
structure Msg where
  command : Option Str := none
  error : Option Str := none
  version : ℤ := 0
  items : List MsgItem := []
  alert : Option Str := none
  deriving DecidableEq, Repr

/-- The ways in which loading a message fails. -/
inductive ReadError
  | invalid | nullDeref | overrun
  deriving DecidableEq, Repr

/-- The value of a field at the cursor, by the type of the field. -/
def readValue (f : Field) (obj : Str) : Option (FieldValue × Str) :=
  match f.type with
  | .num => (jsonGetNum obj).map (Prod.map .num id)
  | .bool => (jsonGetBool obj).map (Prod.map .bool id)
  | .string => (jsonGetString obj).map (Prod.map .string id)
  | .stringarray => (jsonGetStringArray obj).map (Prod.map .stringarray id)
  | .map => (jsonGetMap obj).map (Prod.map .map id)

/-! ### The readers move the cursor forward -/

variable {rest s obj name : Str}

theorem length_scanObject {q : Bool} {d : ℕ} {p : Char} {o : Str}
    (h : scanObject q d p s = some (o, rest)) : rest.length < s.length := by
  induction s generalizing q d p o rest with
  | nil => simp [scanObject] at h
  | cons c s ih =>
    have step : ∀ {q d p}, (scanObject q d p s).map (Prod.map (c :: ·) id) = some (o, rest) →
          rest.length < (c :: s).length := by
      intro q d p h
      obtain ⟨_, h', -⟩ := map_piece_eq_some h
      exact (ih h').trans (Nat.lt_succ_self _)
    unfold scanObject at h
    split at h
    · exact step h
    split at h
    · exact step h
    split at h
    · split at h
      · obtain ⟨-, rfl⟩ := Prod.mk.inj (some.inj h)
        exact Nat.lt_succ_self _
      · exact step h
    · exact step h

theorem length_jsonGetObject {o : Str} (h : jsonGetObject s = some (o, rest)) :
    rest.length < s.length := by
  unfold jsonGetObject at h
  split at h
  · next start hs =>
    have h₁ := length_skipWhitespace_le s
    have h₂ := length_scanObject h
    rw [hs, length_cons] at h₁
    omega
  · simp at h

theorem length_readDigits_le (r : ℤ) (s : Str) : (readDigits r s).2.length ≤ s.length := by
  induction s generalizing r with
  | nil => exact le_rfl
  | cons c s ih =>
    rw [readDigits]
    split
    · exact le_rfl
    · exact (ih _).trans (Nat.le_succ _)

theorem length_strtoint64_le (s : Str) : (strtoint64 s).2.length ≤ s.length := by
  unfold strtoint64
  split
  · exact (length_readDigits_le _ _).trans (Nat.le_succ _)
  · exact length_readDigits_le _ _

/-- What `JSONGetNum` returns is what the number reader found. -/
theorem strtoint64_of_jsonGetNum {n : ℤ} (h : jsonGetNum s = some (n, rest)) :
    strtoint64 (skipWhitespace s) = (n, rest) := by
  unfold jsonGetNum at h
  simp only at h
  split at h
  · exact some.inj h
  · split at h
    · exact some.inj h
    · simp at h

theorem length_jsonGetNum_le {n : ℤ} (h : jsonGetNum s = some (n, rest)) :
    rest.length ≤ s.length := by
  have hle := (length_strtoint64_le _).trans (length_skipWhitespace_le s)
  rwa [strtoint64_of_jsonGetNum h] at hle

theorem length_jsonGetBool_le {b : Bool} (h : jsonGetBool s = some (b, rest)) :
    rest.length ≤ s.length := by
  have hws := length_skipWhitespace_le s
  unfold jsonGetBool at h
  simp only at h
  split at h
  · obtain ⟨-, rfl⟩ := Prod.mk.inj (some.inj h)
    exact (drop_suffix _ _).length_le.trans hws
  split at h
  · obtain ⟨-, rfl⟩ := Prod.mk.inj (some.inj h)
    exact (drop_suffix _ _).length_le.trans hws
  · simp at h

theorem length_jsonGetStringArray_le {v : List (Option Str)}
    (h : jsonGetStringArray s = some (v, rest)) : rest.length ≤ s.length := by
  unfold jsonGetStringArray at h
  split at h
  · next pos hs =>
    have h₁ := length_skipWhitespace_le s
    have h₂ := length_stringArrayLoop_le h
    rw [hs, length_cons] at h₁
    omega
  · simp at h

theorem length_jsonGetMap_le {m : List (Str × Option Str)} (h : jsonGetMap s = some (m, rest)) :
    rest.length ≤ s.length := by
  unfold jsonGetMap at h
  split at h
  · simp at h
  · next hobj =>
    obtain ⟨_, -, heq⟩ := map_eq_some_iff.mp h
    obtain ⟨-, rfl⟩ := Prod.mk.inj heq
    exact (length_jsonGetObject hobj).le

theorem length_readValue_le {f : Field} {v : FieldValue} (h : readValue f s = some (v, rest)) :
    rest.length ≤ s.length := by
  unfold readValue at h
  split at h <;> obtain ⟨_, h', -⟩ := map_piece_eq_some h
  · exact length_jsonGetNum_le h'
  · exact length_jsonGetBool_le h'
  · exact length_jsonGetString_le h'
  · exact length_jsonGetStringArray_le h'
  · exact length_jsonGetMap_le h'

/-! ### Items -/

/-- `loadFields`: the fields of one item, up to the first place where no name can be read. -/
def loadFields (obj : Str) : Option MsgItem :=
  match _hn : jsonGetName obj with
  | none => some []
  | some (name, rest) =>
    match fieldtonum (uppercasestring name) with
    | none => none
    | some f =>
      match _hv : readValue f rest with
      | none => none
      | some (value, rest') => (loadFields rest').map (⟨f, value⟩ :: ·)
termination_by obj.length
decreasing_by
  have h₁ := length_jsonGetName _hn
  have h₂ := length_readValue_le _hv
  omega

/-- The loop of `loadItemArray`, one object for each round: the items and the cursor at which the
loop stops. -/
def itemArrayLoop (pos : Str) : Option (List MsgItem × Str) :=
  match _ho : jsonGetObject pos with
  | none => some ([], pos)
  | some (obj, rest) =>
    match loadFields obj with
    | none => none
    | some item =>
      match _hr : skipToSeparator rest with
      | ',' :: rest' => (itemArrayLoop rest').map (Prod.map (item :: ·) id)
      | rest' => some ([item], rest')
termination_by pos.length
decreasing_by
  have h₁ := length_jsonGetObject _ho
  have h₂ := length_skipToSeparator_le rest
  rw [_hr, List.length_cons] at h₂
  omega

/-- `loadItemArray`: the items and the cursor after the array. The last step takes one character
without looking at it. -/
def loadItemArray (json : Str) : Except ReadError (List MsgItem × Str) :=
  match skipWhitespace json with
  | '[' :: pos =>
    match itemArrayLoop pos with
    | none => .error .invalid
    | some (_, []) => .error .overrun
    | some (items, _ :: rest) => .ok (items, rest)
  | _ => .error .invalid

/-! ### The loops, one round at a time -/

theorem loadFields_of_none (h : jsonGetName obj = none) : loadFields obj = some [] := by
  rw [loadFields]
  split
  · rfl
  · next h' => rw [h] at h'; simp at h'

theorem loadFields_of_some (h : jsonGetName obj = some (name, rest)) :
    loadFields obj = (fieldtonum (uppercasestring name)).bind fun f ↦
      (readValue f rest).bind fun v ↦ (loadFields v.2).map (⟨f, v.1⟩ :: ·) := by
  rw [loadFields]
  split
  · next h' => rw [h] at h'; simp at h'
  · next h' =>
    obtain ⟨rfl, rfl⟩ := Prod.mk.inj (mem_unique h h')
    cases hf : fieldtonum (uppercasestring name) with
    | none => rfl
    | some f =>
      simp only [bind_some]
      split
      · next hv => rw [hv, bind_none]
      · next hv => rw [hv, bind_some]

theorem itemArrayLoop_of_none {pos : Str} (h : jsonGetObject pos = none) :
    itemArrayLoop pos = some ([], pos) := by
  rw [itemArrayLoop]
  split
  · rfl
  · next h' => rw [h] at h'; simp at h'

/-- A round of the item loop: the object is loaded, and a comma after it starts the next round. -/
theorem itemArrayLoop_of_some {pos : Str} (h : jsonGetObject pos = some (obj, rest)) :
    itemArrayLoop pos = (loadFields obj).bind fun item ↦
      if (skipToSeparator rest).head? = some ',' then
        (itemArrayLoop (skipToSeparator rest).tail).map (Prod.map (item :: ·) id)
      else some ([item], skipToSeparator rest) := by
  rw [itemArrayLoop]
  split
  · next h' => rw [h] at h'; simp at h'
  · next h' =>
    obtain ⟨rfl, rfl⟩ := Prod.mk.inj (mem_unique h h')
    cases hl : loadFields obj with
    | none => rfl
    | some item =>
      simp only [bind_some]
      split
      · next hr => rw [hr, head?_cons, if_pos rfl, tail_cons]
      · next hr =>
        rw [if_neg]
        intro hc
        obtain ⟨t, ht⟩ := head?_eq_some_iff.mp hc
        exact hr t ht

theorem length_itemArrayLoop_le {items : List MsgItem} (h : itemArrayLoop s = some (items, rest)) :
    rest.length ≤ s.length := by
  fun_induction itemArrayLoop s generalizing items rest with
  | case1 =>
    obtain ⟨-, rfl⟩ := Prod.mk.inj (some.inj h)
    exact le_rfl
  | case2 => contradiction
  | case3 s obj r ho item _ t ht ih =>
    have h₁ := length_jsonGetObject ho
    have h₂ := length_skipToSeparator_le r
    rw [ht, length_cons] at h₂
    obtain ⟨_, h', -⟩ := map_piece_eq_some h
    exact (ih h').trans (by omega)
  | case4 s obj r ho =>
    have h₁ := length_jsonGetObject ho
    have h₂ := length_skipToSeparator_le r
    obtain ⟨-, rfl⟩ := Prod.mk.inj (some.inj h)
    omega

theorem length_loadItemArray {items : List MsgItem} (h : loadItemArray s = .ok (items, rest)) :
    rest.length < s.length := by
  unfold loadItemArray at h
  split at h
  · next pos hs =>
    have h₁ := length_skipWhitespace_le s
    rw [hs, length_cons] at h₁
    split at h
    · simp at h
    · simp at h
    · next hl =>
      obtain ⟨-, rfl⟩ := Prod.mk.inj (Except.ok.inj h)
      have h₂ := length_itemArrayLoop_le hl
      rw [length_cons] at h₂
      omega
  · simp at h

/-! ### Messages -/

/-- The loop of `load_message` over the body of a response. -/
def respLoop (m : Msg) (obj : Str) : Except ReadError Msg :=
  match _hn : jsonGetName obj with
  | none => .ok m
  | some (name, rest) =>
    if uppercasestring name = "RETURN_CODE".toList then
      -- the code replaces the command name, and nothing after it is read
      match jsonGetString rest with
      | none => .error .invalid
      | some (code, _) => .ok { m with command := code }
    else if uppercasestring name = "VERSION".toList then
      match _hv : jsonGetNum rest with
      | none => .error .invalid
      | some (v, rest') => respLoop { m with version := v } rest'
    else if uppercasestring name = "DATA".toList then
      match _hi : loadItemArray rest with
      | .error e => .error e
      | .ok (items, rest') => respLoop { m with items := m.items ++ items } rest'
    else if uppercasestring name = "ALERT".toList then
      match _hs : jsonGetString rest with
      | none => .error .invalid
      | some (none, _) => .error .nullDeref
      | some (some alert, rest') => respLoop { m with alert := some alert } rest'
    else respLoop m rest
termination_by obj.length
decreasing_by
  all_goals have h₁ := length_jsonGetName _hn
  · have h₂ := length_jsonGetNum_le _hv
    omega
  · have h₂ := length_loadItemArray _hi
    omega
  · have h₂ := length_jsonGetString_le _hs
    omega
  · omega

/-- The loop of `load_message` over the body of a command. -/
def commandLoop (m : Msg) (obj : Str) : Except ReadError Msg :=
  match _hn : jsonGetName obj with
  | none => .ok m
  | some (name, rest) =>
    if uppercasestring name = "VERSION".toList then
      match _hv : jsonGetNum rest with
      | none => .error .invalid
      | some (v, rest') => commandLoop { m with version := v } rest'
    else if uppercasestring name = "DATA".toList then
      match _hi : loadItemArray rest with
      | .error e => .error e
      | .ok (items, rest') => commandLoop { m with items := m.items ++ items } rest'
    else if uppercasestring name = "FIELDS".toList then
      match _ho : jsonGetObject rest with
      | none => .error .invalid
      | some (fieldObject, rest') =>
        match loadFields fieldObject with
        | none => .error .invalid
        | some item => commandLoop { m with items := m.items ++ [item] } rest'
    else commandLoop m rest
termination_by obj.length
decreasing_by
  all_goals have h₁ := length_jsonGetName _hn
  · have h₂ := length_jsonGetNum_le _hv
    omega
  · have h₂ := length_loadItemArray _hi
    omega
  · have h₂ := length_jsonGetObject _ho
    omega
  · omega

/-- `load_message`. -/
def loadMessage (json : Str) : Except ReadError Msg :=
  match jsonGetObject json with
  | none => .error .invalid
  | some (object, _) =>
    match jsonGetName object with
    | none => .error .invalid
    | some (name, rest) =>
      let name := uppercasestring name
      if name = "ERROR".toList then
        match jsonGetString rest with
        | none => .error .invalid
        | some (none, _) => .error .nullDeref
        | some (some msg, _) => .ok { error := some msg }
      else
        match jsonGetObject rest with
        | none => .error .invalid
        | some (cmdObject, _) =>
          if name = "RESP".toList then respLoop { command := some name } cmdObject
          else commandLoop { command := some name } cmdObject

/-! ### The message loops, one round at a time -/

variable {m : Msg}

theorem respLoop_of_none (h : jsonGetName obj = none) : respLoop m obj = .ok m := by
  rw [respLoop]
  split
  · rfl
  · next h' => rw [h] at h'; simp at h'

theorem respLoop_of_some (h : jsonGetName obj = some (name, rest)) : respLoop m obj =
      if uppercasestring name = "RETURN_CODE".toList then
        match jsonGetString rest with
        | none => .error .invalid
        | some (code, _) => .ok { m with command := code }
      else if uppercasestring name = "VERSION".toList then
        match jsonGetNum rest with
        | none => .error .invalid
        | some (v, rest') => respLoop { m with version := v } rest'
      else if uppercasestring name = "DATA".toList then
        match loadItemArray rest with
        | .error e => .error e
        | .ok (items, rest') => respLoop { m with items := m.items ++ items } rest'
      else if uppercasestring name = "ALERT".toList then
        match jsonGetString rest with
        | none => .error .invalid
        | some (none, _) => .error .nullDeref
        | some (some alert, rest') => respLoop { m with alert := some alert } rest'
      else respLoop m rest := by
  rw [respLoop]
  split
  · next h' => rw [h] at h'; simp at h'
  · next h' =>
    obtain ⟨rfl, rfl⟩ := Prod.mk.inj (mem_unique h h')
    split_ifs
    · rfl
    · split <;> next hv => simp only [hv]
    · split <;> next hv => simp only [hv]
    · split <;> next hv => simp only [hv]
    · rfl

theorem commandLoop_of_none (h : jsonGetName obj = none) : commandLoop m obj = .ok m := by
  rw [commandLoop]
  split
  · rfl
  · next h' => rw [h] at h'; simp at h'

theorem commandLoop_of_some (h : jsonGetName obj = some (name, rest)) : commandLoop m obj =
      if uppercasestring name = "VERSION".toList then
        match jsonGetNum rest with
        | none => .error .invalid
        | some (v, rest') => commandLoop { m with version := v } rest'
      else if uppercasestring name = "DATA".toList then
        match loadItemArray rest with
        | .error e => .error e
        | .ok (items, rest') => commandLoop { m with items := m.items ++ items } rest'
      else if uppercasestring name = "FIELDS".toList then
        match jsonGetObject rest with
        | none => .error .invalid
        | some (fieldObject, rest') =>
          match loadFields fieldObject with
          | none => .error .invalid
          | some item => commandLoop { m with items := m.items ++ [item] } rest'
      else commandLoop m rest := by
  rw [commandLoop]
  split
  · next h' => rw [h] at h'; simp at h'
  · next h' =>
    obtain ⟨rfl, rfl⟩ := Prod.mk.inj (mem_unique h h')
    split_ifs
    · split <;> next hv => simp only [hv]
    · split <;> next hv => simp only [hv]
    · split <;> next hv => simp only [hv]
    · rfl

end Jers
