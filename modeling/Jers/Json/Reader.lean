import Jers.Json.Fields

/-!
# Reading message text

The readers of `json.c`. They move a cursor through a buffer that they also modify: the end of an
object is overwritten with a NUL, and strings are unescaped in place. Both kinds of writes happen
behind the cursor or at the end of the piece that is returned, so a reader here returns the piece it
read and the text still in front of the cursor.

Two scanners decide where things end. `JSONGetString` steps over a backslash together with the
character after it. `JSONGetObject` looks for the closing brace on its own and takes a quote for
escaped when the character before it is a backslash, whatever that backslash belongs to.
-/

namespace Jers

open List Option

variable {rest s pos : Str} {str : Option Str}

/-- A reader that only changes the piece it read leaves the cursor where the inner reader did. -/
theorem map_piece_eq_some {α β : Type} {x : Option (α × Str)} {f : α → β} {v : β}
    (h : x.map (Prod.map f id) = some (v, rest)) : ∃ a, x = some (a, rest) ∧ f a = v := by
  obtain ⟨⟨a, r⟩, hx, heq⟩ := map_eq_some_iff.mp h
  obtain ⟨hf, rfl⟩ := Prod.mk.inj heq
  exact ⟨a, hx, hf⟩

/-! ### Objects -/

/-- The search of `JSONGetObject` for the brace that closes the object: the object's text and the
text after the brace. `prev` is the character before the cursor, and `depth` counts the braces
opened since the start. -/
def scanObject (quoted : Bool) (depth : ℕ) (prev : Char) : Str → Option (Str × Str)
  | [] => none
  | c :: rest =>
    if c = '"' then
      (scanObject (if prev = '\\' then quoted else !quoted) depth c rest).map (Prod.map (c :: ·) id)
    else if c = '{' ∧ quoted = false then
      (scanObject quoted (depth + 1) c rest).map (Prod.map (c :: ·) id)
    else if c = '}' ∧ quoted = false then
      if depth = 0 then some ([], rest)
      else (scanObject quoted (depth - 1) c rest).map (Prod.map (c :: ·) id)
    else (scanObject quoted depth c rest).map (Prod.map (c :: ·) id)

/-- `JSONGetObject`: the text between the braces and the cursor after them. -/
def jsonGetObject (json : Str) : Option (Str × Str) :=
  match skipWhitespace json with
  | '{' :: start => scanObject false 0 '{' start
  | _ => none

/-! ### Strings and names -/

/-- What an escape sequence stands for; an unknown one is dropped. -/
def jsonUnescape (c : Char) : Str :=
  match c with
  | '"' => ['"']
  | '\\' => ['\\']
  | 't' => ['\t']
  | 'n' => ['\n']
  | _ => []

/-- The loop of `JSONGetString` after the opening quote: the unescaped string and the cursor after
the closing quote. -/
def scanString : Str → Option (Str × Str)
  | [] => none
  | ['\\'] => none
  | '\\' :: e :: rest => (scanString rest).map (Prod.map (jsonUnescape e ++ ·) id)
  | '"' :: rest => some ([], rest)
  | c :: rest => (scanString rest).map (Prod.map (c :: ·) id)

/-- `JSONGetString`. A null string leaves the cursor where it was, before the word `null`. -/
def jsonGetString (json : Str) : Option (Option Str × Str) :=
  match skipWhitespace json with
  | '"' :: rest => (scanString rest).map (Prod.map some id)
  | pos => if "null".toList.isPrefixOf pos then some (none, json) else none

/-- `JSONGetName`: the next name and the cursor after its colon, or `none` where the source
returns a null pointer. -/
def jsonGetName (json : Str) : Option (Str × Str) :=
  match jsonGetString (skipChars json " \t,]\x7d".toList) with
  | some (some name, rest) => some (name, skipChars rest " \t:".toList)
  | _ => none

/-! ### Numbers and booleans -/

/-- `JSONGetNum`: a numeral that ends at the end of the text, a comma or a closing bracket. -/
def jsonGetNum (json : Str) : Option (ℤ × Str) :=
  let r := strtoint64 (skipWhitespace json)
  match r.2 with
  | [] => some r
  | c :: _ => if c = ',' ∨ c = ']' ∨ c = '}' then some r else none

def jsonGetBool (json : Str) : Option (Bool × Str) :=
  let pos := skipWhitespace json
  if "true".toList.isPrefixOf pos then some (true, pos.drop 4)
  else if "false".toList.isPrefixOf pos then some (false, pos.drop 5)
  else none

/-! ### Arrays and maps -/

/-- The inner loop that moves to the next comma or closing bracket. -/
def skipToSeparator (s : Str) : Str := s.dropWhile fun c ↦ c != ',' && c != ']'

theorem length_skipToSeparator_le (s : Str) : (skipToSeparator s).length ≤ s.length :=
  (dropWhile_suffix _).length_le

theorem length_scanString {v : Str} (h : scanString s = some (v, rest)) :
    rest.length < s.length := by
  fun_induction scanString s generalizing v rest with
  | case1 | case2 => contradiction
  | case3 | case5 =>
    next ih =>
    obtain ⟨_, h', -⟩ := map_piece_eq_some h
    have := ih h'
    simp only [length_cons]
    omega
  | case4 r =>
    obtain ⟨-, rfl⟩ := Prod.mk.inj (some.inj h)
    exact Nat.lt_succ_self _

theorem length_jsonGetString_le {v : Option Str} (h : jsonGetString s = some (v, rest)) :
    rest.length ≤ s.length := by
  unfold jsonGetString at h
  split at h
  · next r hr =>
    obtain ⟨_, h', -⟩ := map_piece_eq_some h
    have := length_scanString h'
    have hws := length_skipWhitespace_le s
    rw [hr, length_cons] at hws
    omega
  · split at h
    · simp only [Option.some.injEq, Prod.mk.injEq] at h
      rw [h.2]
    · simp at h

theorem length_jsonGetName {name : Str} (h : jsonGetName s = some (name, rest)) :
    rest.length < s.length := by
  unfold jsonGetName at h
  split at h
  · next n r hr =>
    obtain ⟨rfl, rfl⟩ := Prod.mk.inj (some.inj h)
    have hskip := length_skipChars_le s " \t,]\x7d".toList
    have hrest := length_skipChars_le r " \t:".toList
    have hws := length_skipWhitespace_le (skipChars s " \t,]\x7d".toList)
    unfold jsonGetString at hr
    split at hr
    · next t ht =>
      obtain ⟨_, h', -⟩ := map_piece_eq_some hr
      have hscan := length_scanString h'
      rw [ht, length_cons] at hws
      omega
    · split at hr <;> simp at hr
  · simp at h

/-- The test after the loop of `JSONGetStringArray`: when no string could be read, the array must
end right at the cursor. -/
def arrayEnd (pos : Str) : Option (List (Option Str) × Str) :=
  match pos with
  | ']' :: rest => some ([], rest)
  | _ => none

/-- The loop of `JSONGetStringArray` after the opening bracket. -/
def stringArrayLoop (pos : Str) : Option (List (Option Str) × Str) :=
  match _hs : jsonGetString pos with
  | none => arrayEnd pos
  | some (str, rest) =>
    match _hr : skipToSeparator rest with
    | ']' :: rest' => some ([str], rest')
    | ',' :: rest' => (stringArrayLoop rest').map (Prod.map (str :: ·) id)
    | _ => none
termination_by pos.length
decreasing_by
  have h₁ := length_jsonGetString_le _hs
  have h₂ := length_skipToSeparator_le rest
  rw [_hr, List.length_cons] at h₂
  omega

def jsonGetStringArray (json : Str) : Option (List (Option Str) × Str) :=
  match skipWhitespace json with
  | '[' :: pos => stringArrayLoop pos
  | _ => none

/-- The loop of `JSONGetMap` over the text of the map's object. -/
def mapLoop (obj : Str) : Option (List (Str × Option Str)) :=
  match _hn : jsonGetName obj with
  | none => some []
  | some (name, rest) =>
    match _hs : jsonGetString rest with
    | none => none
    | some (value, rest') => (mapLoop rest').map ((name, value) :: ·)
termination_by obj.length
decreasing_by
  have h₁ := length_jsonGetName _hn
  have h₂ := length_jsonGetString_le _hs
  omega

def jsonGetMap (json : Str) : Option (List (Str × Option Str) × Str) :=
  match jsonGetObject json with
  | none => none
  | some (obj, rest) => (mapLoop obj).map fun m ↦ (m, rest)

/-! ### The loops, one round at a time -/

theorem stringArrayLoop_of_none (h : jsonGetString pos = none) :
    stringArrayLoop pos = arrayEnd pos := by
  rw [stringArrayLoop]
  split
  · rfl
  · next h' => rw [h] at h'; simp at h'

variable {v : List (Option Str)} {rest' : Str}

theorem stringArrayLoop_of_some (h : jsonGetString pos = some (str, rest)) : stringArrayLoop pos =
      match skipToSeparator rest with
      | ']' :: rest' => some ([str], rest')
      | ',' :: rest' => (stringArrayLoop rest').map (Prod.map (str :: ·) id)
      | _ => none := by
  rw [stringArrayLoop]
  split
  · next h' => rw [h] at h'; simp at h'
  · next h' =>
    obtain ⟨rfl, rfl⟩ := Prod.mk.inj (mem_unique h h')
    split <;> simp_all

theorem stringArrayLoop_of_close (h : jsonGetString pos = some (str, rest))
    (hr : skipToSeparator rest = ']' :: rest') : stringArrayLoop pos = some ([str], rest') := by
  rw [stringArrayLoop_of_some h, hr]
  rfl

theorem stringArrayLoop_of_comma (h : jsonGetString pos = some (str, rest))
    (hr : skipToSeparator rest = ',' :: rest') :
    stringArrayLoop pos = (stringArrayLoop rest').map (Prod.map (str :: ·) id) := by
  rw [stringArrayLoop_of_some h, hr]
  rfl

theorem length_arrayEnd_le (h : arrayEnd s = some (v, rest)) : rest.length ≤ s.length := by
  unfold arrayEnd at h
  split at h
  · obtain ⟨-, rfl⟩ := Prod.mk.inj (some.inj h)
    exact Nat.le_succ _
  · simp at h

theorem length_stringArrayLoop_le (h : stringArrayLoop s = some (v, rest)) :
    rest.length ≤ s.length := by
  fun_induction stringArrayLoop s generalizing v rest with
  | case1 s hs => exact length_arrayEnd_le h
  | case2 s str r hs r' hr =>
    obtain ⟨-, rfl⟩ := Prod.mk.inj (some.inj h)
    have h₁ := length_jsonGetString_le hs
    have h₂ := length_skipToSeparator_le r
    rw [hr, length_cons] at h₂
    omega
  | case3 s str r hs r' hr ih =>
    obtain ⟨_, h', -⟩ := map_piece_eq_some h
    have h₀ := ih h'
    have h₁ := length_jsonGetString_le hs
    have h₂ := length_skipToSeparator_le r
    rw [hr, length_cons] at h₂
    omega
  | case4 => contradiction

end Jers
