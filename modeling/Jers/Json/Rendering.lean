import Jers.Json.Wire
import Jers.Text.Numerals

/-!
# What the writers render

Every writer ends its text with a comma, and a closing function overwrites the last byte if it is
one. For calls that are nested as in a tree, that leaves the text of the tree, whatever the strings
in it end with (`jsonEnd_writeAll`).
-/

namespace Jers

/-- Well-nested calls. A container without a name is an element of an array. -/
inductive Tree
  | int (field : Field) (value : Int64)
  | bool (field : Field) (value : Bool)
  | string (field : Field) (value : Option Str)
  | stringArray (field : Field) (values : List Str)
  | object (name : Option Str) (members : List Tree)
  | array (name : Str) (members : List Tree)

mutual

/-- The calls for a tree. -/
def Tree.write (buff : Str) : Tree → Str
  | int field value => jsonAddInt buff field value.toInt
  | bool field value => jsonAddBool buff field value
  | string field value => jsonAddString buff field value
  | stringArray field values => jsonAddStringArray buff field values
  | object name members => jsonEndObject (writeAll (jsonStartObject buff name) members)
  | array name members => jsonEndArray (writeAll (jsonStartArray buff name) members)

def Tree.writeAll (buff : Str) : List Tree → Str
  | [] => buff
  | t :: ts => writeAll (t.write buff) ts

end

mutual

/-- The canonical text of a tree. -/
def Tree.render : Tree → Str
  | int field value => quotedName field.name ++ (toString value.toInt).toList
  | bool field value => quotedName field.name ++ if value then "true".toList else "false".toList
  | string field value => quotedName field.name ++ value.elim "null".toList quoted
  | stringArray field values =>
    quotedName field.name ++ '[' :: (commaJoin (values.map quoted) ++ [']'])
  | object name members =>
    name.elim [] quotedName ++ '{' :: (commaJoin (renderAll members) ++ ['}'])
  | array name members => quotedName name ++ '[' :: (commaJoin (renderAll members) ++ [']'])

def Tree.renderAll : List Tree → List Str
  | [] => []
  | t :: ts => t.render :: renderAll ts

end

mutual

/-- A writer appends its text and a comma. -/
theorem Tree.write_eq (buff : Str) : ∀ t : Tree, t.write buff = buff ++ (t.render ++ [','])
  | int field value =>
    by simp [write, render, jsonAddInt, int64tostr_eq_toString ⟨value.le_toInt, value.toInt_lt⟩]
  | bool field value => by simp [write, render, jsonAddBool]
  | string field value =>
    by cases value <;> simp [write, render, jsonAddString, jsonAddStringN, quoted]
  | stringArray field values => by simp [write, render, jsonAddStringArray, jsonStringElems_eq]
  | object name members => by
    rw [write, jsonEndObject, writeAll_eq, jsonClose_pieces (by simp [jsonStartObject])]
    cases name <;> simp [jsonStartObject, render]
  | array name members => by
    rw [write, jsonEndArray, writeAll_eq, jsonClose_pieces (by simp [jsonStartArray])]
    simp [jsonStartArray, render]

theorem Tree.writeAll_eq (buff : Str) :
    ∀ ts : List Tree, writeAll buff ts = buff ++ (renderAll ts).flatMap (· ++ [','])
  | [] => by simp [writeAll, renderAll]
  | t :: ts => by
    rw [writeAll, writeAll_eq _ ts, write_eq _ t]
    simp [renderAll]

end

/-- **The calls between `JSONStart` and `JSONEnd`** append the text of their trees and a newline. -/
theorem jsonEnd_writeAll (buff : Str) (ts : List Tree) :
    jsonEnd (Tree.writeAll (jsonStart buff) ts) =
    buff ++ '{' :: (commaJoin (Tree.renderAll ts) ++ ['}', '\n']) := by
  rw [jsonEnd, Tree.writeAll_eq, jsonClose_pieces (by simp [jsonStart])]
  simp [jsonStart]

end Jers
