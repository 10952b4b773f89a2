import Jers.Lib.CString
import Jers.Text.Chars

/-!
# Buffers

`buff_t` of `buffer.c`: a block of memory of which the first `used` bytes hold data. Sizes are
`size_t`, so a difference wraps around, and a copy out of the block stops the computation.

The data of a buffer are lines and, behind them, the start of a line that has not arrived
completely; `splitLines` takes a text apart in this way.
-/

namespace Jers.Comms

open List Option

open CString (Fault)

/-! ### The operations of `buffer.c` -/

/-- `buff_t`; `data` is the block that the pointer points to, `none` for the null pointer. -/
structure Buff where
  data : Option (List Char)
  size : ℕ
  used : ℕ
  deriving DecidableEq, Repr

/-- The memory of the buffer. -/
def Buff.block (b : Buff) : List Char := b.data.getD []

/-- The bytes in use. -/
def Buff.text (b : Buff) : Str := b.block.take b.used

/-- The bytes of the block that are not in use. -/
def Buff.spare (b : Buff) : List Char := b.block.drop b.used

/-- The block has the size that is on record, and not more of it is in use. -/
structure Buff.Valid (b : Buff) : Prop where
  length_block : b.block.length = b.size
  used_le : b.used ≤ b.size

def buffDefaultSize : ℕ := 0x1000

/-- `a - b` for two values of type `size_t`. -/
def sizeSub (a b : ℕ) : ℕ := if b ≤ a then a - b else a + 2 ^ 64 - b

/-- `buffNew`; `fresh` is what the allocated memory happens to hold. -/
def buffNew (fresh : ℕ → Char) (initialSize : ℕ) : Buff :=
  let size := if initialSize ≠ 0 then initialSize else buffDefaultSize
  ⟨some ((List.range size).map fresh), size, 0⟩

def buffFree (_ : Buff) : Buff := ⟨none, 0, 0⟩

/-- The loop `while (new_size <= needed) new_size *= 2`, for a positive size. -/
def doubleSize (needed : ℕ) : ℕ → ℕ → ℕ
  | 0, newSize => newSize
  | fuel + 1, newSize => if newSize ≤ needed then doubleSize needed fuel (newSize * 2) else newSize

/-- `buffResize`, where `realloc` succeeds; `fresh` is what the new memory happens to hold. -/
def buffResize (fresh : ℕ → Char) (b : Buff) (length : ℕ) : Buff :=
  let length := if length = 0 then buffDefaultSize else length
  if b.used + length ≤ b.size then b
  else
    let newSize := if b.size = 0 then buffDefaultSize else b.size
    let newSize := doubleSize (b.used + length) (b.used + length + 1) newSize
    let grown := (List.range (newSize - b.block.length)).map fun i ↦ fresh (b.block.length + i)
    { b with data := some (b.block ++ grown), size := newSize }

/-- Copy `source` into the block at `p`, `memcpy(data + p, source, length)`. -/
def Buff.write (b : Buff) (p : ℕ) (source : List Char) : Except Fault Buff :=
  if p + source.length ≤ b.block.length then
    .ok { b with data := some (b.block.take p ++ source ++ b.block.drop (p + source.length)) }
  else .error .outOfBounds

/-- Write behind the bytes in use, and take the new ones in use. -/
def Buff.append (b : Buff) (newData : List Char) : Except Fault Buff :=
  (b.write b.used newData).map fun b ↦ { b with used := b.used + newData.length }

def buffAdd (fresh : ℕ → Char) (b : Buff) (newData : List Char) : Except Fault Buff :=
  (buffResize fresh b newData.length).append newData

/-- `buffRemove` without shrinking. -/
def buffRemove (b : Buff) (dataSize : ℕ) : Except Fault Buff :=
  if dataSize = 0 then .ok b
  else
    let count := sizeSub b.used dataSize
    match b.data with
    | none => if count = 0 then .ok { b with used := count } else .error .nullPointer
    | some block =>
      if dataSize + count ≤ block.length then
        let moved := (block.drop dataSize).take count
        .ok { b with data := some (moved ++ block.drop count), used := count }
      else .error .outOfBounds

/-- `memchr(data + p, c, count)`, as an offset in the block. -/
def memchr (block : List Char) (p : ℕ) (c : Char) (count : ℕ) : Option ℕ :=
  (((block.drop p).take count).findIdx? (· = c)).map (p + ·)

/-! ### What they do to the text -/

section

variable {b b' : Buff} {n : ℕ}

theorem Buff.text_append_spare (b : Buff) : b.text ++ b.spare = b.block :=
  take_append_drop b.used b.block

theorem Buff.Valid.length_text (h : b.Valid) : b.text.length = b.used := by
  rw [Buff.text, length_take, h.length_block]
  exact Nat.min_eq_left h.used_le

theorem buffNew_spec (fresh : ℕ → Char) (n : ℕ) :
    (buffNew fresh n).Valid ∧ (buffNew fresh n).text = [] := by
  unfold buffNew
  dsimp only
  generalize (if n ≠ 0 then n else buffDefaultSize) = size
  refine ⟨⟨?_, Nat.zero_le _⟩, rfl⟩
  show ((List.range size).map fresh).length = size
  rw [length_map, length_range]

/-- A buffer that holds `text`, given by its block. -/
theorem Buff.valid_of_block {text spare : List Char} (hblock : b.block = text ++ spare)
    (hused : b.used = text.length) (hsize : b.size = (text ++ spare).length) :
    b.Valid ∧ b.text = text ∧ b.spare = spare := by
  refine ⟨⟨by rw [hblock, hsize], ?_⟩, ?_, ?_⟩
  · rw [hused, hsize, length_append]
    exact Nat.le_add_right _ _
  · rw [Buff.text, hblock, hused, take_left]
  · rw [Buff.spare, hblock, hused, drop_left]

theorem le_doubleSize (needed fuel newSize : ℕ) : newSize ≤ doubleSize needed fuel newSize := by
  induction fuel generalizing newSize with
  | zero => exact le_rfl
  | succ fuel ih =>
    rw [doubleSize]
    split_ifs
    · exact (Nat.le_mul_of_pos_right newSize two_pos).trans (ih _)
    · exact le_rfl

theorem lt_doubleSize {needed fuel newSize : ℕ} (hpos : 0 < newSize)
    (hfuel : needed < newSize + fuel) : needed < doubleSize needed fuel newSize := by
  induction fuel generalizing newSize with
  | zero => exact hfuel
  | succ fuel ih =>
    rw [doubleSize]
    split_ifs with hle
    · exact ih (by omega) (by omega)
    · exact Nat.lt_of_not_le hle

/-- There is room for the bytes afterwards, and the text is the same. -/
theorem buffResize_spec (fresh : ℕ → Char) (h : b.Valid) (length : ℕ) :
    (buffResize fresh b length).Valid ∧ (buffResize fresh b length).text = b.text ∧
      (buffResize fresh b length).used = b.used ∧
      b.used + (if length = 0 then buffDefaultSize else length) ≤
      (buffResize fresh b length).size := by
  unfold buffResize
  dsimp only
  generalize (if length = 0 then buffDefaultSize else length) = need
  rcases Decidable.em (b.used + need ≤ b.size) with hroom | hroom
  · rw [if_pos hroom]
    exact ⟨h, rfl, rfl, hroom⟩
  rw [if_neg hroom]
  generalize hstart : (if b.size = 0 then buffDefaultSize else b.size) = start
  have hpos : 0 < start ∧ b.size ≤ start := by
    rw [← hstart]
    split_ifs with h0
    · exact ⟨by decide, h0 ▸ Nat.zero_le _⟩
    · exact ⟨Nat.pos_of_ne_zero h0, le_rfl⟩
  have hgrown := le_doubleSize (b.used + need) (b.used + need + 1) start
  have hlarge : b.used + need < doubleSize (b.used + need) (b.used + need + 1) start :=
    lt_doubleSize hpos.1 (by omega)
  generalize doubleSize (b.used + need) (b.used + need + 1) start = newSize at hgrown hlarge ⊢
  have hlen := h.length_block
  have hused := h.used_le
  refine ⟨⟨?_, ?_⟩, ?_, rfl, by dsimp only; omega⟩
  · show (b.block ++ _).length = newSize
    rw [length_append, length_map, length_range]
    omega
  · show b.used ≤ newSize
    omega
  · show (b.block ++ _).take b.used = b.block.take b.used
    exact take_append_of_le_length (by omega)

theorem append_spec (h : b.Valid) {newData : List Char} (hroom : b.used + newData.length ≤ b.size) :
    ∃ b', b.append newData = .ok b' ∧ b'.Valid ∧ b'.text = b.text ++ newData := by
  have hlen := h.length_block
  have htext := h.length_text
  have hwrite : b.write b.used newData =
      .ok { b with data := some (b.text ++ newData ++ b.block.drop (b.used + newData.length)) } :=
    if_pos (by omega)
  have hlength :
    (b.text ++ newData).length = b.used + newData.length := by rw [length_append, htext]
  refine ⟨_, by rw [Buff.append, hwrite]; rfl, ?_⟩
  obtain ⟨hvalid, htext', -⟩ := Buff.valid_of_block
    (b := { b with data := some (b.text ++ newData ++ b.block.drop (b.used + newData.length)),
                   used := b.used + newData.length }) rfl hlength.symm (by
      show b.size = _
      rw [length_append, hlength, length_drop]
      omega)
  exact ⟨hvalid, htext'⟩

theorem buffAdd_spec (fresh : ℕ → Char) (h : b.Valid) (newData : List Char) :
    ∃ b', buffAdd fresh b newData = .ok b' ∧ b'.Valid ∧ b'.text = b.text ++ newData := by
  obtain ⟨hvalid, htext, hused, hroom⟩ := buffResize_spec fresh h newData.length
  have hle : newData.length ≤ if newData.length = 0 then buffDefaultSize else newData.length := by
    split_ifs with h0
    · exact h0 ▸ Nat.zero_le _
    · exact le_rfl
  rw [← htext]
  exact append_spec hvalid (by omega)

/-- Removing from the front what is in use. -/
theorem buffRemove_of_le (h : b.Valid) (hn : n ≤ b.used) :
    ∃ b', buffRemove b n = .ok b' ∧ b'.Valid ∧ b'.text = b.text.drop n := by
  rcases Nat.eq_zero_or_pos n with rfl | hpos
  · exact ⟨b, rfl, h, rfl⟩
  have hblock : b.block = b.text ++ b.spare := b.text_append_spare.symm
  have hlen := h.length_text
  rcases hdata : b.data with _ | block
  · have hsize : b.size = 0 := by
      rw [← h.length_block, Buff.block, hdata]
      rfl
    have := h.used_le
    omega
  have hb : b.block = block := by rw [Buff.block, hdata, getD_some]
  rw [hb] at hblock
  have hmoved : (block.drop n).take (b.used - n) = b.text.drop n := by
    rw [hblock, drop_append_of_le_length (by omega), take_append_of_le_length, take_of_length_le]
    all_goals rw [length_drop]; omega
  have hlength : block.length = b.size := by rw [← hb, h.length_block]
  have hle := h.used_le
  have hsub : sizeSub b.used n = b.used - n := if_pos hn
  refine ⟨{ b with data := some (b.text.drop n ++ block.drop (b.used - n)), used := b.used - n },
    ?_, ?_⟩
  · rw [buffRemove, if_neg (Nat.ne_of_gt hpos), hdata]
    dsimp only
    rw [hsub, hmoved, if_pos (by omega)]
  · have htext : (b.text.drop n).length = b.used - n := by rw [length_drop, hlen]
    obtain ⟨hvalid, htext', -⟩ := Buff.valid_of_block
      (b := { b with data := some (b.text.drop n ++ block.drop (b.used - n)), used := b.used - n })
      rfl htext.symm (by
        show b.size = _
        rw [length_append, htext, length_drop]
        omega)
    exact ⟨hvalid, htext'⟩

/-- Removing from a buffer that has been freed or emptied: the length of the copy wraps around. -/
theorem buffRemove_emptied (hused : b.used = 0) (hsize : b.block.length < 2 ^ 64) (hn : 0 < n)
    (hn' : n < 2 ^ 64) : ∀ b', buffRemove b n ≠ .ok b' := by
  intro b' h
  have hsub : sizeSub b.used n = 2 ^ 64 - n := by
    rw [sizeSub, if_neg (by omega), hused, Nat.zero_add]
  rw [buffRemove, if_neg (Nat.ne_of_gt hn), hsub] at h
  rcases hdata : b.data with _ | block
  · rw [hdata] at h
    dsimp only at h
    rw [if_neg (by omega)] at h
    exact nomatch h
  · rw [hdata] at h
    rw [Buff.block, hdata, getD_some] at hsize
    dsimp only at h
    rw [if_neg (by omega)] at h
    exact nomatch h

end

/-! ### Lines -/

/-- The complete lines of a text, without their newlines, and what is behind the last newline. -/
def splitLines : Str → List Str × Str
  | [] => ([], [])
  | c :: s =>
    match c == '\n', splitLines s with
    | true, (lines, tail) => ([] :: lines, tail)
    | false, ([], tail) => ([], c :: tail)
    | false, (line :: lines, tail) => ((c :: line) :: lines, tail)

/-- The text of some lines and an incomplete one. -/
def joinLines (lines : List Str) (tail : Str) : Str := lines.flatMap (· ++ ['\n']) ++ tail

theorem joinLines_cons (line : Str) (lines : List Str) (tail : Str) :
    joinLines (line :: lines) tail = line ++ '\n' :: joinLines lines tail := by
  rw [joinLines, flatMap_cons, append_assoc, append_assoc]
  rfl

theorem splitLines_of_notMem {s : Str} (h : '\n' ∉ s) : splitLines s = ([], s) := by
  induction s with
  | nil => rfl
  | cons c s ih =>
    have hc : (c == '\n') = false := beq_false_of_ne fun e ↦ h (e ▸ mem_cons_self)
    rw [splitLines, hc, ih fun hs ↦ h (mem_cons_of_mem c hs)]

theorem splitLines_append {line : Str} (h : '\n' ∉ line) (rest : Str) :
    splitLines (line ++ '\n' :: rest) = (line :: (splitLines rest).1, (splitLines rest).2) := by
  induction line with
  | nil => rfl
  | cons c line ih =>
    have hc : (c == '\n') = false := beq_false_of_ne fun e ↦ h (e ▸ mem_cons_self)
    rw [cons_append, splitLines, hc, ih fun hs ↦ h (mem_cons_of_mem c hs)]

theorem exists_line {s : Str} (h : '\n' ∈ s) :
    ∃ line rest, s = line ++ '\n' :: rest ∧ '\n' ∉ line := by
  obtain ⟨line, rest, rfl, hline⟩ := eq_append_cons_of_mem h
  exact ⟨line, rest, rfl, hline⟩

theorem joinLines_splitLines (s : Str) : joinLines (splitLines s).1 (splitLines s).2 = s := by
  induction hn : s.length using Nat.strong_induction_on generalizing s with
  | _ n ih =>
    rcases Decidable.em ('\n' ∈ s) with hs | hs
    · obtain ⟨line, rest, rfl, hline⟩ := exists_line hs
      rw [splitLines_append hline, joinLines_cons, ih rest.length _ rest rfl]
      rw [← hn, length_append, length_cons]
      omega
    · rw [splitLines_of_notMem hs]
      rfl

theorem splitLines_joinLines {lines : List Str} (h : ∀ line ∈ lines, '\n' ∉ line) (text : Str) :
    splitLines (joinLines lines text) = (lines ++ (splitLines text).1, (splitLines text).2) := by
  induction lines with
  | nil => rfl
  | cons line lines ih =>
    obtain ⟨hline, hlines⟩ := forall_mem_cons.mp h
    rw [joinLines_cons, splitLines_append hline, ih hlines]
    rfl

theorem joinLines_concat (lines : List Str) (line rest : Str) :
    joinLines (lines ++ [line]) rest = joinLines lines (line ++ '\n' :: rest) := by
  rw [joinLines, joinLines, flatMap_append, flatMap_singleton]
  simp only [append_assoc, cons_append, nil_append]

theorem joinLines_append (lines : List Str) (text more : Str) :
    joinLines lines (text ++ more) = joinLines lines text ++ more := (append_assoc _ _ _).symm

/-- Looking for the end of a line from where it starts. -/
theorem memchr_line {before line rest : List Char} {count : ℕ} (h : '\n' ∉ line)
    (hcount : line.length < count) :
    memchr (before ++ (line ++ '\n' :: rest)) before.length '\n' count =
    some (before.length + line.length) := by
  rw [memchr, drop_left]
  have htake :
      (line ++ '\n' :: rest).take count = line ++ '\n' :: rest.take (count - line.length - 1) := by
    rw [take_append, take_of_length_le (by omega)]
    obtain ⟨k, hk⟩ := Nat.exists_eq_succ_of_ne_zero (show count - line.length ≠ 0 by omega)
    rw [hk, take_succ_cons]
    rfl
  have hidx :
      (line ++ '\n' :: rest.take (count - line.length - 1)).findIdx? (· = '\n') =
      some line.length := by
    rw [findIdx?_append, findIdx?_eq_none_iff.mpr, findIdx?_cons]
    · simp
    · intro c hc
      exact decide_eq_false fun e ↦ h (e ▸ hc)
  rw [htake, hidx]
  rfl

theorem memchr_none {before text rest : List Char} (h : '\n' ∉ text) :
    memchr (before ++ (text ++ rest)) before.length '\n' text.length = none := by
  rw [memchr, drop_left, take_left, map_eq_none_iff, findIdx?_eq_none_iff]
  intro c hc
  exact decide_eq_false fun e ↦ h (e ▸ hc)

end Jers.Comms
