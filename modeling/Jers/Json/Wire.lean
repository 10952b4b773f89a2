import Jers.Json.Framing
import Jers.Json.Message

/-!
# Messages as they are written

The callers of the writers build a request from a command name, a version and a list of fields, and
a response from a list of such lists. A field to be written carries the facts the writers rely on:
it is a real field, its value is of the field's type, and a number fits an `int64_t`.

The text that results is written out in closed form, with the commas where the closing functions
leave them.
-/

namespace Jers

open List

/-! ### Comma-separated text -/

/-- Pieces of text with commas between them. -/
def commaJoin : List Str → Str
  | [] => []
  | t :: ts => t ++ ts.flatMap (',' :: ·)

/-- Writing a comma after each piece is joining the pieces and adding one comma. -/
theorem flatMap_comma (t : Str) (ts : List Str) :
    (t :: ts).flatMap (· ++ [',']) = commaJoin (t :: ts) ++ [','] := by
  induction ts generalizing t with
  | nil => simp [commaJoin]
  | cons u us ih =>
    rw [flatMap_cons, ih]
    simp [commaJoin]

theorem jsonClose_comma (bracket tail : Char) (b : Str) :
    jsonClose bracket tail (b ++ [',']) = b ++ [bracket, tail] := by
  simp [jsonClose]

/-- Closing a list of pieces, each followed by a comma. -/
theorem jsonClose_pieces {b : Str} (hb : b.getLast? ≠ some ',') (bracket tail : Char)
    (ts : List Str) :
    jsonClose bracket tail (b ++ ts.flatMap (· ++ [','])) = b ++ commaJoin ts ++
    [bracket, tail] := by
  cases ts with
  | nil => simp [jsonClose, hb, commaJoin]
  | cons t ts => rw [flatMap_comma, ← append_assoc, jsonClose_comma]

/-! ### Fields to be written -/

/-- The values the writers accept. -/
inductive WireValue
  | bool (b : Bool)
  | string (s : Str)
  | num (n : ℤ)
  | stringarray (ss : List Str)
  deriving DecidableEq, Repr

namespace WireValue

def type : WireValue → FieldType
  | bool _ => .bool
  | string _ => .string
  | num _ => .num
  | stringarray _ => .stringarray

/-- The string values inside, which are what the object scan can stumble over. -/
def strings : WireValue → List Str
  | string s => [s]
  | stringarray ss => ss
  | _ => []

/-- The text of a value. -/
def text : WireValue → Str
  | bool b => if b then "true".toList else "false".toList
  | string s => quoted s
  | num n => int64tostr n
  | stringarray ss => '[' :: (commaJoin (ss.map quoted) ++ [']'])

/-- The value as the loader stores it. -/
def received : WireValue → FieldValue
  | bool b => .bool b
  | string s => .string (some s)
  | num n => .num n
  | stringarray ss => .stringarray (ss.map some)

end WireValue

/-- A field to be written, with what its writer relies on. -/
structure WireField where
  field : Field
  value : WireValue
  ne_end : field ≠ .endoffields
  type_eq : value.type = field.type
  isInt64 : ∀ n, value = .num n → IsInt64 n

namespace WireField

/-- Writing a field with the writer for its type. -/
def add (buff : Str) (w : WireField) : Str :=
  match w.value with
  | .bool b => jsonAddBool buff w.field b
  | .string s => jsonAddString buff w.field (some s)
  | .num n => jsonAddInt buff w.field n
  | .stringarray ss => jsonAddStringArray buff w.field ss

/-- The text of a field, without the comma after it. -/
def text (w : WireField) : Str := quotedName w.field.name ++ w.value.text

def strings (w : WireField) : List Str := w.value.strings

/-- The field as the loader stores it. -/
def received (w : WireField) : MsgField := ⟨w.field, w.value.received⟩

end WireField

theorem jsonStringElems_eq (ss : List Str) : jsonStringElems ss = commaJoin (ss.map quoted) := by
  induction ss with
  | nil => rfl
  | cons s ss ih =>
    cases ss with
    | nil => simp [jsonStringElems, commaJoin, quoted]
    | cons u us =>
      rw [jsonStringElems, ih]
      · simp [commaJoin, quoted]
      · simp

theorem WireField.add_eq (buff : Str) (w : WireField) : w.add buff = buff ++ (w.text ++ [',']) := by
  unfold WireField.add WireField.text WireValue.text
  cases w.value with
  | bool b => simp [jsonAddBool]
  | string s => simp [jsonAddString, jsonAddStringN, quoted]
  | num n => simp [jsonAddInt]
  | stringarray ss => simp [jsonAddStringArray, jsonStringElems_eq]

/-- Writing a list of fields. -/
def addFields (buff : Str) (ws : List WireField) : Str := ws.foldl WireField.add buff

theorem addFields_eq (buff : Str) (ws : List WireField) :
    addFields buff ws = buff ++ (ws.map WireField.text).flatMap (· ++ [',']) := by
  induction ws generalizing buff with
  | nil => simp [addFields]
  | cons w ws ih =>
    rw [addFields, foldl_cons, ← addFields, ih, WireField.add_eq]
    simp

/-- Writing one item of a response: an object without a name. -/
def addItem (buff : Str) (ws : List WireField) : Str :=
  jsonEndObject (addFields (jsonStartObject buff none) ws)

/-- Writing the items of a response. -/
def addItems (buff : Str) (items : List (List WireField)) : Str := items.foldl addItem buff

/-- The text between the braces of an object with the given fields. -/
def fieldsText (ws : List WireField) : Str := commaJoin (ws.map WireField.text)

/-- The text of an item. -/
def itemText (ws : List WireField) : Str := '{' :: (fieldsText ws ++ ['}'])

theorem addItem_eq (buff : Str) (ws : List WireField) :
    addItem buff ws = buff ++ (itemText ws ++ [',']) := by
  rw [addItem, jsonEndObject, addFields_eq, jsonClose_pieces (by simp [jsonStartObject])]
  simp [jsonStartObject, itemText, fieldsText]

theorem addItems_eq (buff : Str) (items : List (List WireField)) :
    addItems buff items = buff ++ (items.map itemText).flatMap (· ++ [',']) := by
  induction items generalizing buff with
  | nil => simp [addItems]
  | cons ws items ih =>
    rw [addItems, foldl_cons, ← addItems, ih, addItem_eq]
    simp

/-! ### Requests and responses -/

/-- A command name as the daemon and the agents use them: in upper case, and with nothing in it
that the writer of names would have to escape. -/
structure CommandName where
  chars : Str
  upper : ∀ c ∈ chars, c.toUpper = c
  plain : ∀ c ∈ chars, c ≠ '"' ∧ c ≠ '\\'

/-- The text of a request after its newline has been replaced by a NUL. -/
def requestText (name : CommandName) (version : ℤ) (ws : List WireField) : Str :=
  (closeRequest (addFields (initRequest name.chars version) ws)).dropLast

/-- What stands before the body of a message: the brace, the name and another brace. -/
def envelope (name body : Str) : Str := '{' :: (quotedName name ++ '{' :: (body ++ ['}', '}']))

/-- The version and the comma after it. -/
def versionText (version : ℤ) : Str := quotedName "VERSION".toList ++ int64tostr version ++ [',']

/-- The body of a request. -/
def requestBody (version : ℤ) (ws : List WireField) : Str :=
  versionText version ++ quotedName "FIELDS".toList ++ itemText ws

theorem name_version : Field.version.name = "VERSION".toList := rfl

theorem name_alert : Field.alert.name = "ALERT".toList := rfl

/-- Closing two more brackets after a list of pieces: each overwrites the comma of the last. -/
theorem jsonClose_twice (x y tail : Char) (b : Str) :
    jsonClose '}' tail (jsonClose y ',' (b ++ [x, ','])) = b ++ [x, y, '}'] ++ [tail] := by
  have h₁ : b ++ [x, ','] = (b ++ [x]) ++ [','] := by simp
  have h₂ : (b ++ [x]) ++ [y, ','] = (b ++ [x, y]) ++ [','] := by simp
  rw [h₁, jsonClose_comma, h₂, jsonClose_comma]
  simp

theorem initRequest_eq (name : Str) (version : ℤ) : initRequest name version =
      '{' :: (quotedName name ++ '{' :: (versionText version ++ quotedName "FIELDS".toList)) ++
        ['{'] := by
  simp only [initRequest, jsonStartObject, jsonStart, jsonAddInt, versionText, name_version,
    append_assoc, nil_append, cons_append]

theorem requestText_eq (name : CommandName) (version : ℤ) (ws : List WireField) :
    requestText name version ws = envelope name.chars (requestBody version ws) := by
  have hlast : (initRequest name.chars version).getLast? ≠ some ',' := by
    rw [initRequest_eq, getLast?_concat]
    decide
  simp only [requestText, closeRequest, addFields_eq, jsonEndObject, jsonEnd,
    jsonClose_pieces hlast, jsonClose_twice]
  rw [dropLast_concat, initRequest_eq]
  simp only [envelope, requestBody, itemText, fieldsText, append_assoc, cons_append, nil_append]

/-- The responses the daemon builds: an unnamed one, which may carry an alert, or a named one. -/
inductive ResponseHead
  | resp (alert : Option Str)
  | named (name : CommandName)

namespace ResponseHead

/-- The name handed to `initNamedResponse`. -/
def nameArg : ResponseHead → Option Str
  | resp _ => none
  | named n => some n.chars

/-- The alert handed to `initNamedResponse`. -/
def alertArg : ResponseHead → Option Str
  | resp a => a
  | named _ => none

/-- The name that stands in the text. -/
def name (h : ResponseHead) : Str := h.nameArg.getD "RESP".toList

end ResponseHead

/-- The text of a response after its newline has been replaced by a NUL. -/
def responseText (head : ResponseHead) (version : ℤ) (items : List (List WireField)) : Str :=
  (closeResponse (addItems (initNamedResponse head.nameArg version head.alertArg) items)).dropLast

/-- The alert and the comma after it, when there is one. -/
def alertText : Option Str → Str
  | some a => quotedName "ALERT".toList ++ quoted a ++ [',']
  | none => []

/-- The text between the brackets of the data array. -/
def itemsText (items : List (List WireField)) : Str := commaJoin (items.map itemText)

/-- The body of a response. -/
def responseBody (head : ResponseHead) (version : ℤ) (items : List (List WireField)) : Str :=
  versionText version ++ alertText head.alertArg ++ quotedName "DATA".toList ++
    '[' :: (itemsText items ++ [']'])

theorem initNamedResponse_eq (head : ResponseHead) (version : ℤ) :
    initNamedResponse head.nameArg version head.alertArg =
      '{' :: (quotedName head.name ++ '{' :: (versionText version ++ alertText head.alertArg ++
        quotedName "DATA".toList)) ++ ['['] := by
  cases ha : head.alertArg with
  | none =>
    simp only [initNamedResponse, jsonStartObject, jsonStartArray, jsonStart, jsonAddInt,
      versionText, alertText, ResponseHead.name, name_version, append_assoc, nil_append,
      cons_append]
  | some a =>
    simp only [initNamedResponse, jsonStartObject, jsonStartArray, jsonStart, jsonAddInt,
      jsonAddString, jsonAddStringN, versionText, alertText, quoted, ResponseHead.name,
      name_version, name_alert, append_assoc, nil_append, cons_append]

theorem responseText_eq (head : ResponseHead) (version : ℤ) (items : List (List WireField)) :
    responseText head version items = envelope head.name (responseBody head version items) := by
  have hlast : (initNamedResponse head.nameArg version head.alertArg).getLast? ≠ some ',' := by
    rw [initNamedResponse_eq, getLast?_concat]
    decide
  simp only [responseText, closeResponse, addItems_eq, jsonEndArray, jsonEndObject, jsonEnd,
    jsonClose_pieces hlast, jsonClose_twice]
  rw [dropLast_concat, initNamedResponse_eq]
  simp only [envelope, responseBody, itemsText, append_assoc, cons_append, nil_append]

end Jers
