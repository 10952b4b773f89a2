import Jers.Json.Message
import Jers.Lib.CString

/-!
# The message parser on its buffer

`load_message` of `fields.c` and the readers of `json.c` once more, as they are written: cursors are
offsets into one block of memory, objects are terminated and strings are unescaped in place, and the
strings of a loaded message are pointers into the block. A read or a write outside the block stops
the computation, and so does a null string handed to `uppercasestring`, `strdup` or `setenv`.

Every loop has a bound on its rounds, `fuel`; going over it is a failure of its own.
`Jers.Json.Message` describes the same functions by the text they read, and `Jers.Json.CursorReads`
relates the two.
-/

namespace Jers.Cursor

open CString Exec

/-! ### Characters -/

def skipWhitespace (fuel str : ℕ) : Access ℕ := skipWhile isBlank fuel str

def skipChars (skip : Str) (fuel str : ℕ) : Access ℕ := skipWhile (fun c ↦ skip.contains c) fuel str

/-- `while (*pos != '\0' && *pos != ',' && *pos != ']') pos++`, the inner loop of the two array
readers. -/
def skipToSeparator (fuel pos : ℕ) : Access ℕ := skipWhile (fun c ↦ c != ',' && c != ']') fuel pos

/-- The macro `uppercasestring`. -/
def uppercasestring (fuel : ℕ) (str : Option ℕ) : Access Unit := do
  let p ← deref str
  mapInPlace Char.toUpper fuel p

def strdup (fuel : ℕ) (str : Option ℕ) : Access Str := do
  let p ← deref str
  copy fuel p

/-! ### Objects -/

/-- The loop of `JSONGetObject`: the place of the closing brace, or of the NUL where there is
none. -/
def objectLoop : ℕ → ℤ → Bool → ℕ → Access ℕ
  | 0, _, _, _ => stop .outOfFuel
  | fuel + 1, i, quoted, pos => do
    let c ← load pos
    if c = '\x00' then pure pos
    else if c = '"' then
      -- was it escaped?
      let prev ← load (pos - 1)
      objectLoop fuel i (if prev = '\\' then quoted else !quoted) (pos + 1)
    else
      let i := if c = '{' ∧ quoted = false then i + 1 else if c = '}' ∧
        quoted = false then i - 1 else i
      if i < 0 then pure pos else objectLoop fuel i quoted (pos + 1)

/-- `JSONGetObject`: the pointer to the text of the object and the cursor after it. -/
def jsonGetObject (fuel json : ℕ) : Access (Option (ℕ × ℕ)) := do
  let pos ← skipWhitespace fuel json
  let c ← load pos
  if c ≠ '{' then pure none
  else
    let start := pos + 1
    let pos ← objectLoop fuel 0 false start
    let c ← load pos
    if c ≠ '}' then pure none
    else
      store pos '\x00'
      pure (some (start, pos + 1))

/-! ### Strings and names -/

/-- The loop of `JSONGetString`, which moves `pos` to the closing quote or the NUL, and `dst` to the
end of the unescaped string. -/
def stringLoop : ℕ → ℕ → ℕ → Bool → Access (ℕ × ℕ)
  | 0, _, _, _ => stop .outOfFuel
  | fuel + 1, pos, dst, modifying => do
    let c ← load pos
    if c = '\x00' then pure (pos, dst)
    else if c = '\\' then
      let escaped ← load (pos + 1)
      if escaped = '\x00' then pure (pos + 1, dst)
      else
        match jsonUnescape escaped with
        | [] => stringLoop fuel (pos + 2) dst true
        | u :: _ =>
          store dst u
          stringLoop fuel (pos + 2) (dst + 1) true
    else if c = '"' then pure (pos, dst)
    else
      whenever (modifying = true) (store dst c)
      stringLoop fuel (pos + 1) (dst + 1) modifying

/-- `JSONGetString`: the string, which can be the null pointer, and the cursor after it. -/
def jsonGetString (fuel json : ℕ) : Access (Option (Option ℕ × ℕ)) := do
  let pos ← skipWhitespace fuel json
  let c ← load pos
  if c ≠ '"' then
    let null ← startsWith "null".toList pos
    -- the cursor of the caller is not moved over the word
    pure (if null then some (none, json) else none)
  else
    let string := pos + 1
    let (pos, dst) ← stringLoop fuel string string false
    let c ← load pos
    if c ≠ '"' then pure none
    else
      store dst '\x00'
      pure (some (some string, pos + 1))

/-- `JSONGetName`. -/
def jsonGetName (fuel json : ℕ) : Access (Option (ℕ × ℕ)) := do
  let pos ← skipChars " \t,]\x7d".toList fuel json
  match ← jsonGetString fuel pos with
  | none => pure none
  | some (name, pos) =>
    let pos ← skipChars " \t:".toList fuel pos
    pure (name.map fun name ↦ (name, pos))

/-! ### Numbers and booleans -/

/-- The digit loop of `strtoint64`. -/
def digitLoop : ℕ → ℤ → ℕ → Access (ℤ × ℕ)
  | 0, _, _ => stop .outOfFuel
  | fuel + 1, result, pos => do
    let c ← load pos
    if c = '\x00' ∨ c < '0' ∨ '9' < c then pure (result, pos)
    else digitLoop fuel (Int.bmod (result * 10 + c.toNat - '0'.toNat) (2 ^ 64)) (pos + 1)

def strtoint64 (fuel str : ℕ) : Access (ℤ × ℕ) := do
  let c ← load str
  if c = '-' then
    let (result, pos) ← digitLoop fuel 0 (str + 1)
    pure (Int.bmod (-result) (2 ^ 64), pos)
  else digitLoop fuel 0 str

/-- `JSONGetNum`. -/
def jsonGetNum (fuel json : ℕ) : Access (Option (ℤ × ℕ)) := do
  let pos ← skipWhitespace fuel json
  let (value, pos) ← strtoint64 fuel pos
  let c ← load pos
  pure (if c = '\x00' ∨ c = ',' ∨ c = ']' ∨ c = '}' then some (value, pos) else none)

/-- `JSONGetBool`. -/
def jsonGetBool (fuel json : ℕ) : Access (Option (Bool × ℕ)) := do
  let pos ← skipWhitespace fuel json
  let isTrue ← startsWith "true".toList pos
  if isTrue then pure (some (true, pos + 4))
  else
    let isFalse ← startsWith "false".toList pos
    pure (if isFalse then some (false, pos + 5) else none)

/-! ### Arrays and maps -/

/-- The loop of `JSONGetStringArray`: the strings and the place where it stops. -/
def stringArrayLoop : ℕ → ℕ → Access (List (Option ℕ) × ℕ)
  | 0, _ => stop .outOfFuel
  | fuel + 1, pos => do
    match ← jsonGetString (fuel + 1) pos with
    | none => pure ([], pos)
    | some (str, pos) =>
      let pos ← skipToSeparator (fuel + 1) pos
      let c ← load pos
      if c = ']' then pure ([str], pos)
      else
        let (strings, pos) ← stringArrayLoop fuel (if c = ',' then pos + 1 else pos)
        pure (str :: strings, pos)

/-- `JSONGetStringArray`. -/
def jsonGetStringArray (fuel json : ℕ) : Access (Option (List (Option ℕ) × ℕ)) := do
  let pos ← skipWhitespace fuel json
  let c ← load pos
  if c ≠ '[' then pure none
  else
    let (strings, pos) ← stringArrayLoop fuel (pos + 1)
    let c ← load pos
    pure (if c ≠ ']' then none else some (strings, pos + 1))

/-- The loop of `JSONGetMap`. -/
def mapLoop : ℕ → ℕ → Access (Option (List (ℕ × Option ℕ)))
  | 0, _ => stop .outOfFuel
  | fuel + 1, obj => do
    match ← jsonGetName (fuel + 1) obj with
    | none => pure (some [])
    | some (name, obj) =>
      match ← jsonGetString (fuel + 1) obj with
      | none => pure none
      | some (value, obj) =>
        let entries ← mapLoop fuel obj
        pure (entries.map ((name, value) :: ·))

/-- `JSONGetMap`. -/
def jsonGetMap (fuel json : ℕ) : Access (Option (List (ℕ × Option ℕ) × ℕ)) := do
  match ← jsonGetObject fuel json with
  | none => pure none
  | some (obj, pos) =>
    let entries ← mapLoop fuel obj
    pure (entries.map fun entries ↦ (entries, pos))

/-! ### Items -/

/-- The value of a field: the strings are pointers into the buffer. -/
inductive FieldValue
  | bool (b : Bool)
  | string (s : Option ℕ)
  | num (n : ℤ)
  | stringarray (ss : List (Option ℕ))
  | map (kvs : List (ℕ × Option ℕ))
  deriving DecidableEq, Repr

structure MsgField where
  number : Field
  value : FieldValue
  deriving DecidableEq, Repr

abbrev MsgItem := List MsgField

/-- The `switch` of `loadFields` over the type of the field. -/
def readValue (f : Field) (fuel obj : ℕ) : Access (Option (FieldValue × ℕ)) :=
  match f.type with
  | .num => do return (← jsonGetNum fuel obj).map (Prod.map .num id)
  | .bool => do return (← jsonGetBool fuel obj).map (Prod.map .bool id)
  | .string => do return (← jsonGetString fuel obj).map (Prod.map .string id)
  | .stringarray => do return (← jsonGetStringArray fuel obj).map (Prod.map .stringarray id)
  | .map => do return (← jsonGetMap fuel obj).map (Prod.map .map id)

/-- The next name, in uppercase, with what is compared with the names that are known: the text of
the name, its pointer and the cursor. -/
def nextName (fuel obj : ℕ) : Access (Option (Str × ℕ × ℕ)) := do
  match ← jsonGetName fuel obj with
  | none => pure none
  | some (name, obj) =>
    uppercasestring fuel (some name)
    let text ← copy fuel name
    pure (some (text, name, obj))

def loadFields : ℕ → ℕ → Access (Option MsgItem)
  | 0, _ => stop .outOfFuel
  | fuel + 1, obj => do
    match ← nextName (fuel + 1) obj with
    | none => pure (some [])
    | some (name, _, obj) =>
      match fieldtonum name with
      | none => pure none
      | some f =>
        match ← readValue f (fuel + 1) obj with
        | none => pure none
        | some (value, obj) =>
          let rest ← loadFields fuel obj
          pure (rest.map (⟨f, value⟩ :: ·))

/-- The loop of `loadItemArray`: the items and the place where it stops. -/
def itemArrayLoop : ℕ → ℕ → Access (Option (List MsgItem × ℕ))
  | 0, _ => stop .outOfFuel
  | fuel + 1, pos => do
    match ← jsonGetObject (fuel + 1) pos with
    | none => pure (some ([], pos))
    | some (obj, pos) =>
      match ← loadFields (fuel + 1) obj with
      | none => pure none
      | some item =>
        let pos ← skipToSeparator (fuel + 1) pos
        let c ← load pos
        if c = ']' then pure (some ([item], pos))
        else
          let items ← itemArrayLoop fuel (if c = ',' then pos + 1 else pos)
          pure (items.map (Prod.map (item :: ·) id))

def loadItemArray (fuel json : ℕ) : Access (Option (List MsgItem × ℕ)) := do
  let pos ← skipWhitespace fuel json
  let c ← load pos
  if c ≠ '[' then pure none
  else
    let items ← itemArrayLoop fuel (pos + 1)
    -- the end of the array is consumed whether or not it is there
    pure (items.map (Prod.map id (· + 1)))

/-! ### Messages -/

/-- A loaded message, `msg_t`: the command is a pointer into the buffer, the error is a copy, and
`alert` is what has been put in the environment. -/
structure Msg where
  msgCpy : Str
  command : Option ℕ := none
  error : Option Str := none
  version : ℤ := 0
  items : List MsgItem := []
  alert : Option Str := none
  deriving DecidableEq, Repr

/-- How a round of the loops of `load_message` ends: the function returns `1`, it returns `0`, or
there is another round. -/
inductive Round
  | fail
  | done (m : Msg)
  | next (m : Msg) (obj : ℕ)

/-- The entry `VERSION` of a body. -/
def versionEntry (fuel : ℕ) (m : Msg) (obj : ℕ) : Access Round := do
  match ← jsonGetNum fuel obj with
  | none => pure .fail
  | some (version, obj) => pure (.next { m with version } obj)

/-- The entry `DATA` of a body. -/
def dataEntry (fuel : ℕ) (m : Msg) (obj : ℕ) : Access Round := do
  match ← loadItemArray fuel obj with
  | none => pure .fail
  | some (items, obj) => pure (.next { m with items := m.items ++ items } obj)

/-- The entry `ALERT` of a response; `setenv` copies the string. -/
def alertEntry (fuel : ℕ) (m : Msg) (obj : ℕ) : Access Round := do
  match ← jsonGetString fuel obj with
  | none => pure .fail
  | some (alert, obj) =>
    let alert ← strdup fuel alert
    pure (.next { m with alert := some alert } obj)

/-- The entry `FIELDS` of a command. -/
def fieldsEntry (fuel : ℕ) (m : Msg) (obj : ℕ) : Access Round := do
  match ← jsonGetObject fuel obj with
  | none => pure .fail
  | some (fieldObject, obj) =>
    match ← loadFields fuel fieldObject with
    | none => pure .fail
    | some item => pure (.next { m with items := m.items ++ [item] } obj)

/-- A round of the loop over the body of a response. -/
def respRound (fuel : ℕ) (m : Msg) (obj : ℕ) : Access Round := do
  match ← nextName fuel obj with
  | none => pure (.done m)
  | some (name, _, obj) =>
    if name = "RETURN_CODE".toList then
      match ← jsonGetString fuel obj with
      | none => pure .fail
      | some (command, _) => pure (.done { m with command })
    else if name = "VERSION".toList then versionEntry fuel m obj
    else if name = "DATA".toList then dataEntry fuel m obj
    else if name = "ALERT".toList then alertEntry fuel m obj
    else pure (.next m obj)

/-- A round of the loop over the body of a command. -/
def commandRound (fuel : ℕ) (m : Msg) (obj : ℕ) : Access Round := do
  match ← nextName fuel obj with
  | none => pure (.done m)
  | some (name, _, obj) =>
    if name = "VERSION".toList then versionEntry fuel m obj
    else if name = "DATA".toList then dataEntry fuel m obj
    else if name = "FIELDS".toList then fieldsEntry fuel m obj
    else pure (.next m obj)

/-- The `while` loop around the rounds: the message, or `none` where the source returns `1`. -/
def bodyLoop (round : ℕ → Msg → ℕ → Access Round) : ℕ → Msg → ℕ → Access (Option Msg)
  | 0, _, _ => stop .outOfFuel
  | fuel + 1, m, obj => do
    match ← round (fuel + 1) m obj with
    | .fail => pure none
    | .done m => pure (some m)
    | .next m obj => bodyLoop round fuel m obj

/-- `load_message` on the string at `json`. -/
def loadMessage (fuel json : ℕ) : Access (Option Msg) := do
  let msgCpy ← strdup fuel (some json)
  match ← jsonGetObject fuel json with
  | none => pure none
  | some (object, _) =>
    match ← nextName fuel object with
    | none => pure none
    | some (name, command, object) =>
      if name = "ERROR".toList then
        match ← jsonGetString fuel object with
        | none => pure none
        | some (err, _) =>
          let error ← strdup fuel err
          pure (some { msgCpy, error := some error })
      else
        match ← jsonGetObject fuel object with
        | none => pure none
        | some (cmdObject, _) =>
          if name = "RESP".toList then
            bodyLoop respRound fuel { msgCpy, command := some command } cmdObject
          else bodyLoop commandRound fuel { msgCpy, command := some command } cmdObject

end Jers.Cursor
