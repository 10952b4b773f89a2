import Jers.Json.Fields

/-!
# Building message text

The writers of `json.c` and the request and response frames of `fields.c`. A `buff_t` is the text
written to it so far, so every writer returns the longer text. Each value is followed by a comma,
and the closing functions overwrite that comma.

The end marker of the field table has no name to write, and `getFieldName` returns a null pointer
for it; the writers here are only used at the other fields.
-/

namespace Jers

/-- What `JSONescapeString` writes for one character. -/
def jsonEscapeChar (c : Char) : Str :=
  match c with
  | '\\' => ['\\', '\\']
  | '\t' => ['\\', 't']
  | '\n' => ['\\', 'n']
  | '"' => ['\\', '"']
  | c => [c]

/-- The first `size` characters of a string, escaped. -/
def jsonEscapeString (value : Str) (size : ℕ) : Str := (value.take size).flatMap jsonEscapeChar

/-- An escape takes two characters. -/
theorem length_jsonEscapeString_le (s : Str) (n : ℕ) : (jsonEscapeString s n).length ≤ 2 * n := by
  have hchar (c : Char) : (jsonEscapeChar c).length ≤ 2 := by
    unfold jsonEscapeChar
    split <;> simp
  induction n generalizing s with
  | zero => exact Nat.zero_le _
  | succ n ih =>
    cases s with
    | nil => exact Nat.zero_le _
    | cons c s =>
      have hrest := ih s
      have hfirst := hchar c
      rw [jsonEscapeString] at hrest ⊢
      rw [List.take_succ_cons, List.flatMap_cons, List.length_append]
      omega

/-- A quoted name and the colon after it. -/
def quotedName (name : Str) : Str := '"' :: (name ++ ['"', ':'])

def jsonAddInt (buff : Str) (field : Field) (value : ℤ) : Str :=
  buff ++ quotedName field.name ++ int64tostr value ++ [',']

/-- A string value, or the word `null` for a null pointer. -/
def jsonAddStringN (buff : Str) (field : Field) (value : Option Str) (size : ℕ) : Str :=
  buff ++ quotedName field.name ++ (match value with
      | some v => '"' :: (jsonEscapeString v size ++ ['"'])
      | none => "null".toList) ++ [',']

/-- `JSONAddStringN` with the length of the string. -/
def jsonAddString (buff : Str) (field : Field) (value : Option Str) : Str :=
  jsonAddStringN buff field value (match value with | some v => v.length | none => 0)

/-- The elements of a string array, separated by commas. -/
def jsonStringElems : List Str → Str
  | [] => []
  | [v] => '"' :: (jsonEscapeString v v.length ++ ['"'])
  | v :: vs => '"' :: (jsonEscapeString v v.length ++ ['"', ',']) ++ jsonStringElems vs

def jsonAddStringArray (buff : Str) (field : Field) (values : List Str) : Str :=
  buff ++ quotedName field.name ++ '[' :: (jsonStringElems values ++ [']', ','])

def jsonAddBool (buff : Str) (field : Field) (value : Bool) : Str :=
  buff ++ quotedName field.name ++ (if value then "true".toList else "false".toList) ++ [',']

def jsonStartObject (buff : Str) (name : Option Str) : Str :=
  buff ++ (match name with | some n => quotedName n | none => []) ++ ['{']

def jsonStartArray (buff name : Str) : Str := buff ++ quotedName name ++ ['[']

/-- Closing a bracket: a trailing comma is overwritten, and `tail` follows the bracket. -/
def jsonClose (bracket tail : Char) (buff : Str) : Str :=
  (if buff.getLast? = some ',' then buff.dropLast else buff) ++ [bracket, tail]

def jsonEndObject (buff : Str) : Str := jsonClose '}' ',' buff

def jsonEndArray (buff : Str) : Str := jsonClose ']' ',' buff

/-- A message is one object, which begins here. -/
def jsonStart (buff : Str) : Str := buff ++ ['{']

def jsonEnd (buff : Str) : Str := jsonClose '}' '\n' buff

/-- A map is written as an object whose keys are copied without escaping. -/
def jsonAddMap (buff : Str) (field : Field) (values : List (Str × Str)) : Str :=
  jsonEndObject (jsonStartObject buff (some field.name) ++ values.flatMap fun kv ↦
      quotedName kv.1 ++ '"' :: (jsonEscapeString kv.2 kv.2.length ++ ['"', ',']))

/-! ### Requests and responses -/

/-- `_initRequest`, reached through the macro `initRequest`. -/
def initRequest (name : Str) (version : ℤ) : Str :=
  let b := jsonStart []
  let b := jsonStartObject b (some name)
  let b := jsonAddInt b .version version
  jsonStartObject b (some "FIELDS".toList)

/-- Closes the fields, the command and the message. -/
def closeRequest (b : Str) : Str := jsonEnd (jsonEndObject (jsonEndObject b))

def initNamedResponse (name : Option Str) (version : ℤ) (alert : Option Str) : Str :=
  let b := jsonStart []
  let b := jsonStartObject b (some (name.getD "RESP".toList))
  let b := jsonAddInt b .version version
  let b := match alert with
    | some a => jsonAddString b .alert (some a)
    | none => b
  jsonStartArray b "DATA".toList

def initResponseAlert (version : ℤ) (alert : Option Str) : Str :=
  initNamedResponse none version alert

def initResponse (version : ℤ) : Str := initNamedResponse none version none

def closeResponse (b : Str) : Str := jsonEnd (jsonEndObject (jsonEndArray b))

end Jers
