import Jers.Json.Cursor

/-!
# The message parser in a larger buffer

`load_message` is called on a line at the start of a buffer that goes on behind it. Where the parser
returns on the line and its terminator alone, it does the same in the buffer, with as much fuel or
more, and leaves what is behind the terminator as it is. There is one lemma for each function of
`Jers.Json.Cursor`, and it follows the definition.
-/

namespace Jers.Cursor

open CString Extends

variable {fuel fuel' : ℕ}

section

variable (hfuel : fuel ≤ fuel')
include hfuel

/-- The name of a field is changed in place, up to its terminator. -/
theorem extends_uppercasestring (str : Option ℕ) :
    Extends (uppercasestring fuel str) (uppercasestring fuel' str) :=
  (Extends.deref str).bind fun p ↦ .mapInPlace _ hfuel p

theorem extends_strdup (str : Option ℕ) : Extends (strdup fuel str) (strdup fuel' str) :=
  (Extends.deref str).bind fun p ↦ .copy hfuel p

/-- The braces are counted up to the last one of the object or up to a terminator. The character
before a quote is read too, and it lies on the line. -/
theorem extends_objectLoop (i : ℤ) (quoted : Bool) (pos : ℕ) :
    Extends (objectLoop fuel i quoted pos) (objectLoop fuel' i quoted pos) := by
  induction fuel, fuel', hfuel using fuel_le_induction generalizing i quoted pos with
  | zero => exact .stop _ _
  | succ fuel fuel' hfuel ih =>
    refine (Extends.load pos).bind fun c ↦ ?_
    split_ifs
    · exact .pure pos
    · exact (Extends.load (pos - 1)).bind fun _ ↦ ih _ _ _
    -- the braces are counted, and the loop stops or goes on
    all_goals dsimp only
    all_goals split_ifs
    all_goals first | exact .pure pos | exact ih _ _ _

/-- An object is cut off by a terminator in the place of its last brace. -/
theorem extends_jsonGetObject (json : ℕ) :
    Extends (jsonGetObject fuel json) (jsonGetObject fuel' json) := by
  refine (Extends.skipWhile _ hfuel json).bind fun pos ↦ (Extends.load pos).bind fun c ↦ ?_
  split_ifs
  · exact .pure none
  refine (extends_objectLoop hfuel 0 false (pos + 1)).bind fun pos' ↦
    (Extends.load pos').bind fun c ↦ ?_
  split_ifs
  · exact .pure none
  · exact (Extends.store pos' _).bind fun _ ↦ .pure _

/-- A string is unescaped in place: what is written lies before what is read. -/
theorem extends_stringLoop (pos dst : ℕ) (modifying : Bool) :
    Extends (stringLoop fuel pos dst modifying) (stringLoop fuel' pos dst modifying) := by
  induction fuel, fuel', hfuel using fuel_le_induction generalizing pos dst modifying with
  | zero => exact .stop _ _
  | succ fuel fuel' hfuel ih =>
    refine (Extends.load pos).bind fun c ↦ ?_
    split_ifs
    · exact .pure _
    · refine (Extends.load (pos + 1)).bind fun escaped ↦ ?_
      split_ifs
      · exact .pure _
      · rcases jsonUnescape escaped with _ | ⟨u, us⟩
        · exact ih _ _ _
        · exact (Extends.store dst u).bind fun _ ↦ ih _ _ _
    · exact .pure _
    · exact (whenever (.store dst c)).bind fun _ ↦ ih _ _ _

/-- A string is cut off behind its unescaped text. -/
theorem extends_jsonGetString (json : ℕ) :
    Extends (jsonGetString fuel json) (jsonGetString fuel' json) := by
  refine (Extends.skipWhile _ hfuel json).bind fun pos ↦ (Extends.load pos).bind fun c ↦ ?_
  split_ifs
  · exact (Extends.startsWith _ pos).bind fun _ ↦ .pure _
  refine (extends_stringLoop hfuel _ _ _).bind fun ends ↦ (Extends.load ends.1).bind fun c ↦ ?_
  split_ifs
  · exact .pure none
  · exact (Extends.store ends.2 _).bind fun _ ↦ .pure _

theorem extends_jsonGetName (json : ℕ) :
    Extends (jsonGetName fuel json) (jsonGetName fuel' json) := by
  refine (skipWhile _ hfuel json).bind fun pos ↦ (extends_jsonGetString hfuel pos).bind ?_
  rintro (_ | ⟨name, pos'⟩)
  · exact .pure none
  · exact (skipWhile _ hfuel pos').bind fun _ ↦ .pure _

/-- Digits are read up to the first other character. -/
theorem extends_digitLoop (result : ℤ) (pos : ℕ) :
    Extends (digitLoop fuel result pos) (digitLoop fuel' result pos) := by
  induction fuel, fuel', hfuel using fuel_le_induction generalizing result pos with
  | zero => exact .stop _ _
  | succ fuel fuel' hfuel ih =>
    refine (Extends.load pos).bind fun c ↦ ?_
    split_ifs
    · exact .pure _
    · exact ih _ _

/-- A sign, if there is one, and the digits behind it. -/
theorem extends_strtoint64 (str : ℕ) : Extends (strtoint64 fuel str) (strtoint64 fuel' str) := by
  refine (Extends.load str).bind fun c ↦ ?_
  split_ifs
  · exact (extends_digitLoop hfuel 0 (str + 1)).bind fun _ ↦ .pure _
  · exact extends_digitLoop hfuel 0 str

theorem extends_jsonGetNum (json : ℕ) : Extends (jsonGetNum fuel json) (jsonGetNum fuel' json) := by
  refine (skipWhile _ hfuel json).bind fun pos ↦ (extends_strtoint64 hfuel pos).bind fun value ↦ ?_
  exact (Extends.load value.2).bind fun _ ↦ .pure _

theorem extends_jsonGetBool (json : ℕ) :
    Extends (jsonGetBool fuel json) (jsonGetBool fuel' json) := by
  refine (Extends.skipWhile _ hfuel json).bind fun pos ↦
    (Extends.startsWith _ pos).bind fun isTrue ↦ ?_
  split_ifs
  · exact .pure _
  · exact (Extends.startsWith _ pos).bind fun _ ↦ .pure _

/-- The strings of an array are taken up to the first that is not one. -/
theorem extends_stringArrayLoop (pos : ℕ) :
    Extends (stringArrayLoop fuel pos) (stringArrayLoop fuel' pos) := by
  induction fuel, fuel', hfuel using fuel_le_induction generalizing pos with
  | zero => exact .stop _ _
  | succ fuel fuel' hfuel ih =>
    refine (extends_jsonGetString hfuel pos).bind ?_
    rintro (_ | ⟨str, pos'⟩)
    · exact .pure _
    refine (Extends.skipWhile _ hfuel pos').bind fun pos'' ↦ (Extends.load pos'').bind fun c ↦ ?_
    split_ifs
    · exact .pure _
    all_goals exact (ih _).bind fun _ ↦ .pure _

theorem extends_jsonGetStringArray (json : ℕ) :
    Extends (jsonGetStringArray fuel json) (jsonGetStringArray fuel' json) := by
  refine (Extends.skipWhile _ hfuel json).bind fun pos ↦ (Extends.load pos).bind fun c ↦ ?_
  split_ifs
  · exact .pure none
  · exact (extends_stringArrayLoop hfuel _).bind fun ends ↦
      (Extends.load ends.2).bind fun _ ↦ .pure _

/-- The pairs of a map, by induction on the fuel as in `extends_loadFields`. -/
theorem extends_mapLoop (obj : ℕ) : Extends (mapLoop fuel obj) (mapLoop fuel' obj) := by
  induction fuel, fuel', hfuel using fuel_le_induction generalizing obj with
  | zero => exact .stop _ _
  | succ fuel fuel' hfuel ih =>
    refine (extends_jsonGetName hfuel obj).bind ?_
    rintro (_ | ⟨name, obj'⟩)
    · exact .pure _
    refine (extends_jsonGetString hfuel obj').bind ?_
    rintro (_ | ⟨value, obj''⟩)
    · exact .pure _
    · exact (ih obj'').bind fun _ ↦ .pure _

theorem extends_jsonGetMap (json : ℕ) : Extends (jsonGetMap fuel json) (jsonGetMap fuel' json) := by
  refine (extends_jsonGetObject hfuel json).bind ?_
  rintro (_ | ⟨obj, pos⟩)
  · exact .pure none
  · exact (extends_mapLoop hfuel obj).bind fun _ ↦ .pure _

/-- A value is read by the type of its field. -/
theorem extends_readValue (f : Field) (obj : ℕ) :
    Extends (readValue f fuel obj) (readValue f fuel' obj) := by
  unfold readValue
  rcases f.type with _ | _ | _ | _ | _
  all_goals dsimp only
  · exact (extends_jsonGetBool hfuel obj).bind fun _ ↦ .pure _
  · exact (extends_jsonGetString hfuel obj).bind fun _ ↦ .pure _
  · exact (extends_jsonGetNum hfuel obj).bind fun _ ↦ .pure _
  · exact (extends_jsonGetStringArray hfuel obj).bind fun _ ↦ .pure _
  · exact (extends_jsonGetMap hfuel obj).bind fun _ ↦ .pure _

/-- The name of an entry is made upper case in place and read. -/
theorem extends_nextName (obj : ℕ) : Extends (nextName fuel obj) (nextName fuel' obj) := by
  refine (extends_jsonGetName hfuel obj).bind ?_
  rintro (_ | ⟨name, obj'⟩)
  · exact .pure none
  · exact (extends_uppercasestring hfuel (some name)).bind fun _ ↦
      (copy hfuel name).bind fun _ ↦ .pure _

/-- The fields of an item up to the end of its object, or to a name that is not known. -/
theorem extends_loadFields (obj : ℕ) : Extends (loadFields fuel obj) (loadFields fuel' obj) := by
  induction fuel, fuel', hfuel using fuel_le_induction generalizing obj with
  | zero => exact .stop _ _
  | succ fuel fuel' hfuel ih =>
    refine (extends_nextName hfuel obj).bind ?_
    rintro (_ | ⟨name, _, obj'⟩)
    · exact .pure _
    dsimp only
    rcases fieldtonum name with _ | f
    · exact .pure none
    refine (extends_readValue hfuel f obj').bind ?_
    rintro (_ | ⟨value, obj''⟩)
    · exact .pure none
    · exact (ih obj'').bind fun _ ↦ .pure _

/-- The items of an array are taken up to the first that is not an object. -/
theorem extends_itemArrayLoop (pos : ℕ) :
    Extends (itemArrayLoop fuel pos) (itemArrayLoop fuel' pos) := by
  induction fuel, fuel', hfuel using fuel_le_induction generalizing pos with
  | zero => exact .stop _ _
  | succ fuel fuel' hfuel ih =>
    refine (extends_jsonGetObject hfuel pos).bind ?_
    rintro (_ | ⟨obj, pos'⟩)
    · exact .pure _
    refine (extends_loadFields hfuel obj).bind ?_
    rintro (_ | item)
    · exact .pure none
    refine (Extends.skipWhile _ hfuel pos').bind fun pos'' ↦ (Extends.load pos'').bind fun c ↦ ?_
    split_ifs
    · exact .pure _
    all_goals exact (ih _).bind fun _ ↦ .pure _

/-- An array of items does not have to be closed. -/
theorem extends_loadItemArray (json : ℕ) :
    Extends (loadItemArray fuel json) (loadItemArray fuel' json) := by
  refine (Extends.skipWhile _ hfuel json).bind fun pos ↦ (Extends.load pos).bind fun c ↦ ?_
  split_ifs
  · exact .pure none
  · exact (extends_itemArrayLoop hfuel (pos + 1)).bind fun _ ↦ .pure _

theorem extends_versionEntry (m : Msg) (obj : ℕ) :
    Extends (versionEntry fuel m obj) (versionEntry fuel' m obj) := by
  refine (extends_jsonGetNum hfuel obj).bind ?_
  rintro (_ | _)
  all_goals exact .pure _

theorem extends_dataEntry (m : Msg) (obj : ℕ) :
    Extends (dataEntry fuel m obj) (dataEntry fuel' m obj) := by
  refine (extends_loadItemArray hfuel obj).bind ?_
  rintro (_ | _)
  all_goals exact .pure _

/-- The text of an alert is copied; a null one is followed. -/
theorem extends_alertEntry (m : Msg) (obj : ℕ) :
    Extends (alertEntry fuel m obj) (alertEntry fuel' m obj) := by
  refine (extends_jsonGetString hfuel obj).bind ?_
  rintro (_ | ⟨alert, obj'⟩)
  · exact .pure _
  · exact (extends_strdup hfuel alert).bind fun _ ↦ .pure _

theorem extends_fieldsEntry (m : Msg) (obj : ℕ) :
    Extends (fieldsEntry fuel m obj) (fieldsEntry fuel' m obj) := by
  refine (extends_jsonGetObject hfuel obj).bind ?_
  rintro (_ | ⟨fieldObject, obj'⟩)
  · exact .pure _
  refine (extends_loadFields hfuel fieldObject).bind ?_
  rintro (_ | _)
  all_goals exact .pure _

/-- One entry of the body of a response. -/
theorem extends_respRound (m : Msg) (obj : ℕ) :
    Extends (respRound fuel m obj) (respRound fuel' m obj) := by
  refine (extends_nextName hfuel obj).bind ?_
  rintro (_ | ⟨name, _, obj'⟩)
  · exact .pure _
  dsimp only
  split_ifs
  · refine (extends_jsonGetString hfuel obj').bind ?_
    rintro (_ | _)
    all_goals exact .pure _
  · exact extends_versionEntry hfuel m obj'
  · exact extends_dataEntry hfuel m obj'
  · exact extends_alertEntry hfuel m obj'
  · exact .pure _

/-- One entry of the body of a command. -/
theorem extends_commandRound (m : Msg) (obj : ℕ) :
    Extends (commandRound fuel m obj) (commandRound fuel' m obj) := by
  refine (extends_nextName hfuel obj).bind ?_
  rintro (_ | ⟨name, _, obj'⟩)
  · exact .pure _
  dsimp only
  split_ifs
  · exact extends_versionEntry hfuel m obj'
  · exact extends_dataEntry hfuel m obj'
  · exact extends_fieldsEntry hfuel m obj'
  · exact .pure _

/-- The entries of a body, for a round that extends to larger buffers. -/
theorem extends_bodyLoop {round : ℕ → Msg → ℕ → Access Round}
    (hround : ∀ {fuel fuel'}, fuel ≤ fuel' → ∀ m obj,
      Extends (round fuel m obj) (round fuel' m obj)) (m : Msg)
    (obj : ℕ) : Extends (bodyLoop round fuel m obj) (bodyLoop round fuel' m obj) := by
  induction fuel, fuel', hfuel using fuel_le_induction generalizing m obj with
  | zero => exact .stop _ _
  | succ fuel fuel' hfuel ih =>
    refine (hround hfuel m obj).bind ?_
    rintro (_ | m' | ⟨m', obj'⟩)
    · exact .pure none
    · exact .pure (some m')
    · exact ih m' obj'

/-- **`load_message` does the same in a larger buffer.** -/
theorem extends_loadMessage (json : ℕ) :
    Extends (loadMessage fuel json) (loadMessage fuel' json) := by
  refine (extends_strdup hfuel (some json)).bind fun msgCpy ↦
    (extends_jsonGetObject hfuel json).bind ?_
  rintro (_ | ⟨object, _⟩)
  · exact .pure none
  refine (extends_nextName hfuel object).bind ?_
  rintro (_ | ⟨name, command, object'⟩)
  · exact .pure none
  dsimp only
  split_ifs
  · refine (extends_jsonGetString hfuel object').bind ?_
    rintro (_ | ⟨err, _⟩)
    · exact .pure none
    · exact (extends_strdup hfuel err).bind fun _ ↦ .pure _
  all_goals
    refine (extends_jsonGetObject hfuel object').bind ?_
    rintro (_ | ⟨cmdObject, _⟩)
    · exact .pure none
  · exact extends_bodyLoop hfuel extends_respRound _ cmdObject
  · exact extends_bodyLoop hfuel extends_commandRound _ cmdObject

end

end Jers.Cursor
