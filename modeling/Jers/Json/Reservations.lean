import Jers.Comms.Buffer
import Jers.Json.Builder
import Jers.Text.Numerals

/-!
# What the JSON writers reserve

Every writer of `json.c` reserves room by a count of its own and then writes without a check. The
count of `JSONAddBool` is one byte short for the word `false`. `JSONStartObject` and
`JSONStartArray`, and with them `JSONAddMap`, take the pointer they write through before the
reservation, which may move the block. The closing functions look at the last byte in use, which an
empty buffer does not have. All the other calls fit (`Writer.safe_iff`).
-/

namespace Jers.Comms

open List

/-- What `realloc` does: what the new memory happens to hold, and whether the block is moved. -/
structure Memory where
  fresh : ℕ → Char
  moves : Bool

/-- The block of a buffer, as a pointer into it names it: `none` for the null pointer. -/
def Buff.home (b : Buff) : Option ℕ := b.data.map fun _ ↦ 0

/-- `realloc` of a block. A block that is moved, or that is new, is another one. -/
def Memory.realloc (mem : Memory) (home : Option ℕ) : Option ℕ :=
  some (home.elim 0 fun n ↦ if mem.moves then n + 1 else n)

/-- `buffResize`, with the block that the buffer has then. A buffer that grows is given to
`realloc`. -/
def Memory.resize (mem : Memory) (b : Buff) (required : ℕ) : Buff × Option ℕ :=
  let b' := buffResize mem.fresh b required
  (b', if b'.size = b.size then b.home else mem.realloc b.home)

/-- Write `text` behind the bytes in use, through a pointer into the block `home`. -/
def writeThrough (home : Option ℕ) (b : Buff × Option ℕ) (text : Str) : Except CString.Fault Buff :=
  if home = b.2 then b.1.append text else .error .outOfBounds

/-- Reserve `required` bytes, take the pointer and write `text`. The NUL that `JSONescapeString`
leaves behind its text lies where the closing quote is written next. -/
def reserve (mem : Memory) (b : Buff) (required : ℕ) (text : Str) : Except CString.Fault Buff :=
  let b' := mem.resize b required
  writeThrough b'.2 b' text

/-- The same, where the pointer is taken first. -/
def reserveLate (mem : Memory) (b : Buff) (required : ℕ) (text : Str) : Except CString.Fault Buff :=
  let home := b.home
  writeThrough home (mem.resize b required) text

/-- The block stays where it is when `required` bytes are reserved. -/
def Memory.Stays (mem : Memory) (b : Buff) (required : ℕ) : Prop :=
  b.used + required ≤ b.size ∨ mem.moves = false ∧ b.data.isSome

/-- Close a bracket, over the comma that may be the last byte in use. -/
def close (mem : Memory) (b : Buff) (bracket tail : Char) : Except CString.Fault Buff :=
  match b.text.getLast? with
  | none => .error .outOfBounds
  | some c =>
    if c = ',' then do buffAdd mem.fresh (← b.write (b.used - 1) [bracket]) [tail]
    else buffAdd mem.fresh b [bracket, tail]

/-- `MAX_ESC_LEN` -/
def maxEscLen (n : ℕ) : ℕ := n * 2 + 1

/-- The calls of the writers. -/
inductive Writer
  | jsonAddInt (field : Field) (value : Int64)
  | jsonAddStringN (field : Field) (value : Option Str) (size : ℕ)
  | jsonAddStringArray (field : Field) (values : List Str)
  | jsonAddBool (field : Field) (value : Bool)
  | jsonAddMap (field : Field) (values : List (Str × Str))
  | jsonStartObject (name : Option Str)
  | jsonStartArray (name : Str)
  | jsonEndObject
  | jsonEndArray
  | jsonEnd

/-- The writers count in an `int` what they write, which is not bounded here: the text of a call is
shorter than 2^31 bytes. -/
def Writer.run (mem : Memory) (b : Buff) : Writer → Except CString.Fault Buff
  | jsonAddInt field value =>
    reserve mem b (field.name.length + 32 + 4) (Jers.jsonAddInt [] field value.toInt)
  | jsonAddStringN field value size =>
    reserve mem b (field.name.length + maxEscLen (if value.isNone then 4 else size) + 6)
      (Jers.jsonAddStringN [] field value size)
  | jsonAddStringArray field values =>
    reserve mem b (field.name.length + 6 + (values.map fun v ↦ maxEscLen v.length + 3).sum)
      (Jers.jsonAddStringArray [] field values)
  | jsonAddBool field value =>
    reserve mem b (field.name.length + 8) (Jers.jsonAddBool [] field value)
  | jsonAddMap field values => do
    let b ← reserveLate mem b (field.name.length + 4) (Jers.jsonStartObject [] field.name)
    let b ← reserve mem b (values.map fun kv ↦ kv.1.length + maxEscLen kv.2.length + 6).sum
      (values.flatMap fun kv ↦ quotedName kv.1 ++ '"' :: (jsonEscapeString kv.2 kv.2.length ++
        ['"', ',']))
    close mem b '}' ','
  | jsonStartObject name =>
    reserveLate mem b ((name.getD []).length + 4) (Jers.jsonStartObject [] name)
  | jsonStartArray name => reserveLate mem b (name.length + 4) (Jers.jsonStartArray [] name)
  | jsonEndObject => close mem b '}' ','
  | jsonEndArray => close mem b ']' ','
  | jsonEnd => close mem b '}' '\n'

/-- Every byte is written within the block, and no more of it is in use than there is. -/
def Writer.Safe (mem : Memory) (b : Buff) (w : Writer) : Prop :=
  ∃ b', w.run mem b = .ok b' ∧ b'.used ≤ b'.size

def Writer.Fits (mem : Memory) (b : Buff) : Writer → Prop
  | jsonAddBool field value => value = true ∨ b.size ≠ b.used + (field.name.length + 8)
  | jsonAddMap field _ => mem.Stays b (field.name.length + 4)
  | jsonStartObject name => mem.Stays b ((name.getD []).length + 4)
  | jsonStartArray name => mem.Stays b (name.length + 4)
  | jsonEndObject | jsonEndArray | jsonEnd => 0 < b.used
  | _ => True

/-! ### The lengths of the texts -/

theorem length_jsonStringElems_le (values : List Str) :
    (jsonStringElems values).length ≤ (values.map fun v ↦ maxEscLen v.length + 3).sum := by
  fun_induction jsonStringElems values with
  | case1 => exact le_rfl
  | case2 v =>
    have hv := length_jsonEscapeString_le v v.length
    simp [maxEscLen]
    omega
  | case3 v vs _ ih =>
    have hv := length_jsonEscapeString_le v v.length
    simp [maxEscLen] at ih ⊢
    omega

theorem length_pairs_le (values : List (Str × Str)) :
    (values.flatMap fun kv ↦ quotedName kv.1 ++ '"' :: (jsonEscapeString kv.2 kv.2.length ++
      ['"', ','])).length ≤ (values.map fun kv ↦ kv.1.length + maxEscLen kv.2.length + 6).sum := by
  induction values with
  | nil => exact le_rfl
  | cons kv values ih =>
    have hv := length_jsonEscapeString_le kv.2 kv.2.length
    rw [flatMap_cons, map_cons, sum_cons, length_append]
    refine Nat.add_le_add ?_ ih
    simp [quotedName, maxEscLen]
    omega

theorem length_jsonStartObject_le (name : Option Str) :
    (Jers.jsonStartObject [] name).length ≤ (name.getD []).length + 4 := by
  cases name <;> simp [Jers.jsonStartObject, quotedName]

theorem length_jsonStartArray_le (name : Str) :
    (Jers.jsonStartArray [] name).length ≤ name.length + 4 := by
  simp [Jers.jsonStartArray, quotedName]

/-! ### The writers -/

variable {mem : Memory} {b : Buff} {required : ℕ} {text : Str}

theorem reserve_eq : reserve mem b required text = (buffResize mem.fresh b required).append text :=
  if_pos rfl

theorem reserve_spec (mem : Memory) (h : b.Valid) (hlen : text.length ≤ required) :
    ∃ b', reserve mem b required text = .ok b' ∧ b'.Valid ∧ b'.text = b.text ++ text := by
  obtain ⟨hvalid, htext, hused, hroom⟩ := buffResize_spec mem.fresh h required
  rw [reserve_eq, ← htext]
  refine append_spec hvalid ?_
  split at hroom <;> omega

theorem reserve_safe (h : b.Valid) (hlen : text.length ≤ required) :
    ∃ b', reserve mem b required text = .ok b' ∧ b'.used ≤ b'.size := by
  obtain ⟨b', hb', hvalid, -⟩ := reserve_spec mem h hlen
  exact ⟨b', hb', hvalid.used_le⟩

theorem buffResize_of_room (hpos : 0 < required) (hroom : b.used + required ≤ b.size) :
    buffResize mem.fresh b required = b := by
  rw [buffResize, if_neg hpos.ne', if_pos hroom]

theorem lt_size_buffResize (mem : Memory) (hpos : 0 < required)
    (hroom : ¬b.used + required ≤ b.size) :
    b.used + required < (buffResize mem.fresh b required).size := by
  rw [buffResize, if_neg hpos.ne', if_neg hroom]
  refine lt_doubleSize ?_ (by omega)
  split
  · decide
  · omega

theorem home_eq_resize_iff (hpos : 0 < required) :
    b.home = (mem.resize b required).2 ↔ mem.Stays b required := by
  rw [Memory.resize, Memory.Stays]
  by_cases hroom : b.used + required ≤ b.size
  · rw [buffResize_of_room hpos hroom]
    exact iff_of_true (if_pos rfl).symm (.inl hroom)
  · have hgrown := lt_size_buffResize mem hpos hroom
    dsimp only
    rw [if_neg (by omega), or_iff_right hroom, Buff.home, Memory.realloc]
    cases b.data <;> cases mem.moves <;> simp

/-- A pointer taken before the reservation is as good as one taken after it if the block stays. -/
theorem reserveLate_of_stays (hpos : 0 < required) (h : mem.Stays b required) :
    reserveLate mem b required text = reserve mem b required text := by
  rw [reserveLate, (home_eq_resize_iff hpos).mpr h, reserve]

theorem reserveLate_of_not_stays (hpos : 0 < required) (h : ¬mem.Stays b required) :
    reserveLate mem b required text = .error .outOfBounds :=
  if_neg fun heq ↦ h ((home_eq_resize_iff hpos).mp heq)

theorem reserveLate_iff {P : Buff → Prop} (hpos : 0 < required)
    (h : ∃ b', reserve mem b required text = .ok b' ∧ P b') :
    (∃ b', reserveLate mem b required text = .ok b' ∧ P b') ↔ mem.Stays b required := by
  by_cases hstays : mem.Stays b required
  · rw [reserveLate_of_stays hpos hstays]
    exact iff_of_true h hstays
  · rw [reserveLate_of_not_stays hpos hstays]
    exact iff_of_false (by simp) hstays

theorem close_spec (h : b.Valid) (hused : 0 < b.used) (bracket tail : Char) :
    ∃ b', close mem b bracket tail = .ok b' ∧ b'.used ≤ b'.size := by
  have hlast : b.text.getLast? ≠ none := by
    rw [Ne, getLast?_eq_none_iff, ← length_eq_zero_iff, h.length_text]
    omega
  obtain ⟨c, hc⟩ := Option.ne_none_iff_exists'.mp hlast
  rw [close, hc]
  dsimp only
  split
  · have hle := h.used_le
    have hblock := h.length_block
    rw [Buff.write, if_pos (by simp; omega)]
    obtain ⟨b', hadd, hvalid, -⟩ := buffAdd_spec mem.fresh (b :=
      { b with data := some (b.block.take (b.used - 1) ++ [bracket] ++
        b.block.drop (b.used - 1 + 1)) })
      ⟨by simp [Buff.block] at hblock ⊢; omega, hle⟩ [tail]
    exact ⟨b', hadd, hvalid.used_le⟩
  · obtain ⟨b', hadd, hvalid, -⟩ := buffAdd_spec mem.fresh h [bracket, tail]
    exact ⟨b', hadd, hvalid.used_le⟩

theorem close_safe_iff (h : b.Valid) (bracket tail : Char) :
    (∃ b', close mem b bracket tail = .ok b' ∧ b'.used ≤ b'.size) ↔ 0 < b.used := by
  refine ⟨fun hok ↦ Nat.pos_of_ne_zero fun hzero ↦ ?_, fun hused ↦ close_spec h hused bracket tail⟩
  simp [close, Buff.text, hzero] at hok

/-- The text may be one byte longer than the reservation, except where the buffer has just that
room. -/
theorem reserve_next_safe_iff (h : b.Valid) (hpos : 0 < required)
    (hlen : text.length = required + 1) :
    (∃ b', reserve mem b required text = .ok b' ∧ b'.used ≤ b'.size) ↔
    b.size ≠ b.used + required := by
  obtain ⟨hvalid, -, hused, -⟩ := buffResize_spec mem.fresh h required
  refine ⟨fun ⟨b', hok, _⟩ hfull ↦ ?_, fun hne ↦ ?_⟩
  · have hblock := h.length_block
    rw [reserve_eq, buffResize_of_room hpos hfull.ge, Buff.append, Buff.write,
      if_neg (by omega)] at hok
    cases hok
  · have hroom : b.used + required < (buffResize mem.fresh b required).size := by
      by_cases hle : b.used + required ≤ b.size
      · rw [buffResize_of_room hpos hle]
        omega
      · exact lt_size_buffResize _ hpos hle
    obtain ⟨b', hb', hvalid', -⟩ := append_spec hvalid (show _ + text.length ≤ _ by omega)
    exact ⟨b', reserve_eq.trans hb', hvalid'.used_le⟩

/-- **The writers and their reservations**, for every buffer. -/
theorem Writer.safe_iff (h : b.Valid) (w : Writer) : w.Safe mem b ↔ w.Fits mem b := by
  cases w with
  | jsonAddInt field value =>
    have hlen := length_int64tostr_le ⟨value.le_toInt, value.toInt_lt⟩
    exact iff_of_true (reserve_safe h (by simp [Jers.jsonAddInt, quotedName]; omega)) trivial
  | jsonAddStringN field value size =>
    refine iff_of_true (reserve_safe h ?_) trivial
    cases value with
    | none => simp [Jers.jsonAddStringN, quotedName, maxEscLen]
    | some v =>
      have hlen := length_jsonEscapeString_le v size
      simp [Jers.jsonAddStringN, quotedName, maxEscLen]
      omega
  | jsonAddStringArray field values =>
    have hlen := length_jsonStringElems_le values
    refine iff_of_true (reserve_safe h ?_) trivial
    generalize (values.map fun v ↦ maxEscLen v.length + 3).sum = size at hlen ⊢
    simp [Jers.jsonAddStringArray, quotedName]
    omega
  | jsonAddBool field value =>
    cases value with
    | true => exact iff_of_true (reserve_safe h (by simp [Jers.jsonAddBool, quotedName])) (.inl rfl)
    | false =>
      refine (reserve_next_safe_iff h (Nat.succ_pos _)
        (by simp [Jers.jsonAddBool, quotedName])).trans ?_
      simp [Fits]
  | jsonAddMap field values =>
    rw [Fits]
    refine ⟨fun hok ↦ by_contra fun hmoves ↦ ?_, fun hstays ↦ ?_⟩
    · obtain ⟨b', hok, -⟩ := hok
      rw [run, reserveLate_of_not_stays (Nat.succ_pos _) hmoves] at hok
      cases hok
    · obtain ⟨b₁, hstart, hvalid₁, htext₁⟩ :=
        reserve_spec mem h (length_jsonStartObject_le field.name)
      rw [Option.getD_some] at hstart
      obtain ⟨b₂, hpairs, hvalid₂, htext₂⟩ := reserve_spec mem hvalid₁ (length_pairs_le values)
      have hused : 0 < b₂.used := by
        rw [← hvalid₂.length_text, htext₂, htext₁]
        simp [Jers.jsonStartObject]
      obtain ⟨b₃, hclose, hle⟩ := close_spec hvalid₂ hused '}' ','
      refine ⟨b₃, ?_, hle⟩
      rw [run, reserveLate_of_stays (Nat.succ_pos _) hstays, hstart]
      show (reserve mem b₁ _ _ >>= fun b ↦ close mem b '}' ',') = .ok b₃
      rw [hpairs]
      exact hclose
  | jsonStartObject name =>
    exact reserveLate_iff (Nat.succ_pos _) (reserve_safe h (length_jsonStartObject_le name))
  | jsonStartArray name =>
    exact reserveLate_iff (Nat.succ_pos _) (reserve_safe h (length_jsonStartArray_le name))
  | jsonEndObject | jsonEndArray | jsonEnd => exact close_safe_iff h _ _

/-- A new buffer has room to spare. -/
theorem Writer.safe_iff_false :
    (Writer.jsonAddBool .jobid false).Safe ⟨fun _ ↦ ' ', true⟩ (buffNew (fun _ ↦ ' ') 64) :=
  (safe_iff (buffNew_spec _ _).1 _).mpr (.inr (by decide))

/-- A buffer with just the room that is reserved. -/
theorem Writer.not_safe_false :
    ¬ (Writer.jsonAddBool .jobid false).Safe ⟨fun _ ↦ ' ', true⟩ (buffNew (fun _ ↦ ' ') 13) := by
  rintro ⟨b', hok, -⟩
  cases hok

/-! ### Opening an object or an array -/

/-- The name, if there is one, and the bracket. -/
def openingText (name : Option Str) (bracket : Char) : Str :=
  (name.elim [] fun name ↦ '"' :: (name ++ ['"', ':'])) ++ [bracket]

/-- The call leaves the bytes in use as they are, and writes `text` and nothing else behind them. -/
def Writer.Appends (mem : Memory) (b : Buff) (w : Writer) (text : Str) : Prop :=
  ∃ b', w.run mem b = .ok b' ∧ b'.Valid ∧ b'.text = b.text ++ text

/-- **Objects and arrays are opened at the end of the buffer** if the block need not be moved. -/
theorem Writer.opens_iff (mem : Memory) (h : b.Valid) :
    (∀ name, (jsonStartObject name).Appends mem b (openingText name '{') ↔
      mem.Stays b ((name.getD []).length + 4)) ∧
    ∀ name, (jsonStartArray name).Appends mem b (openingText (some name) '[') ↔
    mem.Stays b (name.length + 4) := by
  refine ⟨fun name ↦ ?_, fun name ↦ ?_⟩
  · have htext : openingText name '{' = Jers.jsonStartObject [] name := by
      cases name <;> simp [openingText, Jers.jsonStartObject, quotedName]
    rw [htext]
    exact reserveLate_iff (Nat.succ_pos _) (reserve_spec mem h (length_jsonStartObject_le name))
  · have htext : openingText (some name) '[' = Jers.jsonStartArray [] name := by
      simp [openingText, Jers.jsonStartArray, quotedName]
    rw [htext]
    exact reserveLate_iff (Nat.succ_pos _) (reserve_spec mem h (length_jsonStartArray_le name))

/-- There is room in a new buffer. -/
theorem Writer.opens_new :
    (jsonStartObject none).Appends ⟨fun _ ↦ ' ', true⟩ (buffNew (fun _ ↦ ' ') 64)
    (openingText none '{') :=
  ((opens_iff _ (buffNew_spec _ _).1).1 none).mpr (.inl (by decide))

/-- A full buffer, which is moved. -/
theorem Writer.not_appends_moved :
    ¬ (jsonStartArray ['J', 'O', 'B', 'S']).Appends ⟨fun _ ↦ ' ', true⟩ (buffNew (fun _ ↦ ' ') 7)
      (openingText (some ['J', 'O', 'B', 'S']) '[') := by
  rintro ⟨b', hok, -⟩
  cases hok

end Jers.Comms
