import Jers.Text.Chars
import Mathlib.Data.List.TakeWhile

/-!
# Escaped text and key/value lines

The state files hold one `KEY value` pair on each line. A value that may contain newlines, tabs or
backslashes is written by `escapeString`, and `loadKeyValue` undoes the escapes of every value it
reads, also of those that were written as they are. This module has the two functions of
`common.c`, the line reader, and the numerals `%d` prints and `atoi` reads.

The value of `escapeString` is modelled, not the size of its static buffer.
-/

namespace Jers

open List

/-! ### Escapes -/

/-- What `escapeString` writes for one character. -/
def escapeChar (c : Char) : Str :=
  if c = '\\' then ['\\', '\\']
  else if c = '\n' then ['\\', 'n']
  else if c = '\t' then ['\\', 't']
  else [c]

def escapeString (string : Str) : Str := string.flatMap escapeChar

theorem escapeString_cons (c : Char) (s : Str) :
    escapeString (c :: s) = escapeChar c ++ escapeString s := flatMap_cons

/-- The character left by the escape `\c`. An unknown escape keeps its backslash. -/
def unescapeChar (c : Char) : Char :=
  if c = 'n' then '\n' else if c = '\\' then '\\' else if c = 't' then '\t' else '\\'

/-- `unescapeString`. The `memmove` drops the character after every backslash, known escape or
not. A backslash at the very end stays: the reader of a line leaves two NULs there. -/
def unescapeString : Str → Str
  | [] => []
  | [c] => [c]
  | c :: d :: s =>
    if c = '\\' then unescapeChar d :: unescapeString s else c :: unescapeString (d :: s)

variable {word : Str} {b : Str} {lines : List Str} {c : Char} {n : ℤ} {s : Str} {name : Str}

theorem unescapeString_cons_of_ne (h : c ≠ '\\') (s : Str) :
    unescapeString (c :: s) = c :: unescapeString s := by
  cases s with
  | nil => rfl
  | cons d s => rw [unescapeString, if_neg h]

theorem unescapeString_backslash (c : Char) (s : Str) :
    unescapeString ('\\' :: c :: s) = unescapeChar c :: unescapeString s := by
  rw [unescapeString, if_pos rfl]

/-- **Escapes are undone.** What was written by `escapeString` is read back, whatever follows. -/
theorem unescapeString_escapeString_append (s t : Str) :
    unescapeString (escapeString s ++ t) = s ++ unescapeString t := by
  induction s with
  | nil => rfl
  | cons c s ih =>
    rw [escapeString_cons, append_assoc, escapeChar]
    split_ifs with h₁ h₂ h₃
    · subst h₁
      rw [cons_append, singleton_append, unescapeString_backslash, ih]
      rfl
    · subst h₂
      rw [cons_append, singleton_append, unescapeString_backslash, ih]
      rfl
    · subst h₃
      rw [cons_append, singleton_append, unescapeString_backslash, ih]
      rfl
    · rw [singleton_append, unescapeString_cons_of_ne h₁, ih, cons_append]

theorem unescapeString_escapeString (s : Str) : unescapeString (escapeString s) = s := by
  simpa [unescapeString] using unescapeString_escapeString_append s []

theorem mem_escapeString (h : c ∈ escapeString s) : c ≠ '\n' ∧ c ≠ '\t' := by
  obtain ⟨d, -, hd⟩ := mem_flatMap.mp h
  unfold escapeChar at hd
  split_ifs at hd with h₁ h₂ h₃
  all_goals simp only [mem_cons, not_mem_nil, or_false] at hd
  · rcases hd with rfl | rfl <;> decide
  · rcases hd with rfl | rfl <;> decide
  · rcases hd with rfl | rfl <;> decide
  · exact ⟨fun h ↦ h₂ (hd ▸ h), fun h ↦ h₃ (hd ▸ h)⟩

/-- Undoing the escapes never lengthens a text. -/
theorem length_unescapeString_le (s : Str) : (unescapeString s).length ≤ s.length := by
  induction s using unescapeString.induct with
  | case1 | case2 c => exact Nat.le_refl _
  | case3 d s ih =>
    rw [unescapeString_backslash, length_cons, length_cons, length_cons]
    omega
  | case4 c d s hc ih =>
    rw [unescapeString_cons_of_ne hc, length_cons, length_cons]
    omega

/-- The length of a text is kept exactly when it has no escape: a backslash stands at most at the
very end. -/
theorem length_unescapeString_eq_iff (s : Str) :
    (unescapeString s).length = s.length ↔ '\\' ∉ s.dropLast := by
  induction s using unescapeString.induct with
  | case1 | case2 c => simp [unescapeString]
  | case3 d s ih =>
    have hle := length_unescapeString_le s
    rw [unescapeString_backslash, dropLast_cons_of_ne_nil (cons_ne_nil _ _)]
    simp only [length_cons, mem_cons, true_or, not_true_eq_false, iff_false]
    omega
  | case4 c d s hc ih =>
    rw [unescapeString_cons_of_ne hc, dropLast_cons_of_ne_nil (cons_ne_nil _ _),
      length_cons, length_cons, Nat.add_right_cancel_iff, ih, mem_cons]
    simp [Ne.symm hc]

/-- A text without an escape is read as it is, and any other text is changed. -/
theorem unescapeString_eq_self_iff (s : Str) : unescapeString s = s ↔ '\\' ∉ s.dropLast := by
  refine ⟨fun h ↦ (length_unescapeString_eq_iff s).mp (by rw [h]), fun h ↦ ?_⟩
  induction s using unescapeString.induct with
  | case1 | case2 c => rfl
  | case3 d s ih =>
    rw [dropLast_cons_of_ne_nil (cons_ne_nil _ _)] at h
    exact absurd mem_cons_self h
  | case4 c d s hc ih =>
    rw [dropLast_cons_of_ne_nil (cons_ne_nil _ _)] at h
    rw [unescapeString_cons_of_ne hc, ih (fun hm ↦ h (mem_cons_of_mem _ hm))]

/-- The text ends in a backslash that is not itself the second half of an escape. -/
def dangling : Str → Bool
  | [] => false
  | [c] => c == '\\'
  | c :: d :: s => if c = '\\' then dangling s else dangling (d :: s)

/-- A tab after `a` separates the two parts, unless it is swallowed by a dangling backslash. -/
theorem unescapeString_append_tab (a s : Str) : unescapeString (a ++ '\t' :: s) =
      unescapeString a ++ (if dangling a then [] else ['\t']) ++ unescapeString s := by
  induction a using unescapeString.induct with
  | case1 => exact unescapeString_cons_of_ne (by decide) s
  | case2 c =>
    by_cases hc : c = '\\'
    · subst hc
      exact unescapeString_backslash '\t' s
    · rw [singleton_append, unescapeString_cons_of_ne hc, unescapeString_cons_of_ne (by decide)]
      simp [unescapeString, dangling, hc]
  | case3 d a ih =>
    rw [cons_append, cons_append, unescapeString_backslash, ih, unescapeString_backslash]
    simp [dangling]
  | case4 c d a hc ih =>
    rw [cons_append, unescapeString_cons_of_ne hc, ih, unescapeString_cons_of_ne hc]
    simp [dangling, hc]

/-- The tail of an escaped text that starts inside an escape is not longer than what was escaped,
when it is read from there. -/
theorem length_unescapeString_backslash_escapeString (s : Str) :
    (unescapeString ('\\' :: escapeString s)).length ≤ s.length + 1 := by
  induction s with
  | nil => exact Nat.le_refl _
  | cons c s ih =>
    have hs := congrArg length (unescapeString_escapeString s)
    have hletter : ∀ x : Char, x ≠ '\\' →
        (unescapeString ('\\' :: '\\' :: x :: escapeString s)).length ≤ s.length + 1 + 1 := by
      intro x hx
      rw [unescapeString_backslash, unescapeString_cons_of_ne hx]
      simp [hs]
    rw [escapeString_cons, escapeChar, length_cons]
    split_ifs
    · rw [cons_append, singleton_append, unescapeString_backslash, length_cons]
      omega
    · exact hletter 'n' (by decide)
    · exact hletter 't' (by decide)
    · rw [singleton_append, unescapeString_backslash, length_cons, hs]
      omega

/-- Reading an escaped text from any place gives no more characters than were escaped. -/
theorem length_unescapeString_of_suffix_escapeString {q s : Str} (h : q <:+ escapeString s) :
    (unescapeString q).length ≤ s.length := by
  induction s with
  | nil =>
    rw [suffix_nil.mp h]
    exact Nat.le_refl _
  | cons c s ih =>
    have hs := congrArg length (unescapeString_escapeString s)
    have hletter : ∀ x : Char, x ≠ '\\' →
        (unescapeString (x :: escapeString s)).length ≤ s.length + 1 := by
      intro x hx
      rw [unescapeString_cons_of_ne hx, length_cons, hs]
    have hpair : ∀ x : Char, (unescapeString ('\\' :: x :: escapeString s)).length = s.length +
        1 := by
      intro x
      rw [unescapeString_backslash, length_cons, hs]
    -- the suffix is the whole text, starts inside the first escape, or lies after it
    rw [escapeString_cons, escapeChar] at h
    rw [length_cons]
    split_ifs at h with h₁
    all_goals simp only [cons_append, nil_append, suffix_cons_iff] at h
    · rcases h with rfl | rfl | h
      · exact (hpair _).le
      · exact length_unescapeString_backslash_escapeString s
      · exact (ih h).trans (Nat.le_succ _)
    · rcases h with rfl | rfl | h
      · exact (hpair _).le
      · exact hletter 'n' (by decide)
      · exact (ih h).trans (Nat.le_succ _)
    · rcases h with rfl | rfl | h
      · exact (hpair _).le
      · exact hletter 't' (by decide)
      · exact (ih h).trans (Nat.le_succ _)
    · rcases h with rfl | h
      · exact hletter c h₁
      · exact (ih h).trans (Nat.le_succ _)

theorem dangling_iff_of_notMem_dropLast (h : '\\' ∉ s.dropLast) : dangling s = true ↔ '\\' ∈ s := by
  induction s using unescapeString.induct with
  | case1 => simp [dangling]
  | case2 c => rw [dangling, beq_iff_eq, mem_singleton, eq_comm]
  | case3 d s ih =>
    rw [dropLast_cons_of_ne_nil (cons_ne_nil _ _)] at h
    exact absurd mem_cons_self h
  | case4 c d s hc ih =>
    rw [dropLast_cons_of_ne_nil (cons_ne_nil _ _)] at h
    rw [dangling, if_neg hc, ih (fun hm ↦ h (mem_cons_of_mem _ hm))]
    simp [Ne.symm hc]

/-- A part of a text that starts anywhere and runs through a tab into an escaped value. -/
theorem length_unescapeString_of_suffix_tab {q a s : Str} (h : q <:+ a ++ '\t' :: escapeString s) :
    (unescapeString q).length ≤ a.length + 1 + s.length := by
  have hwhole : ∀ b : Str,
      (unescapeString (b ++ '\t' :: escapeString s)).length ≤ b.length + 1 + s.length := by
    intro b
    have hb := length_unescapeString_le b
    rw [unescapeString_append_tab, unescapeString_escapeString, length_append, length_append]
    split <;> simp only [length_nil, length_singleton] <;> omega
  induction a with
  | nil =>
    rcases suffix_cons_iff.mp h with rfl | h
    · exact hwhole []
    · have := length_unescapeString_of_suffix_escapeString h
      omega
  | cons c a ih =>
    rcases suffix_cons_iff.mp h with rfl | h
    · exact hwhole (c :: a)
    · have := ih h
      rw [length_cons]
      omega

/-! ### Lines -/

/-- The lines `getline` returns, without their newlines. -/
def getlines : Str → List Str
  | [] => []
  | c :: s =>
    if c = '\n' then [] :: getlines s
    else match getlines s with
      | [] => [[c]]
      | line :: lines => (c :: line) :: lines

/-- The lines of the text `a` followed by a newline. -/
def pieces (a : Str) : List Str := getlines (a ++ ['\n'])

theorem getlines_newline (s : Str) : getlines ('\n' :: s) = [] :: getlines s := by
  rw [getlines, if_pos rfl]

theorem getlines_cons_of_ne (h : c ≠ '\n') {s line : Str}
    (hs : getlines s = line :: lines) : getlines (c :: s) = (c :: line) :: lines := by
  rw [getlines, if_neg h, hs]

theorem pieces_ne_nil (a : Str) : pieces a ≠ [] := by
  induction a with
  | nil => exact cons_ne_nil _ _
  | cons c a ih =>
    obtain ⟨line, lines, h⟩ := exists_cons_of_ne_nil ih
    by_cases hc : c = '\n'
    · subst hc
      exact fun h' ↦ cons_ne_nil _ _ ((getlines_newline _).symm.trans h')
    · exact fun h' ↦ cons_ne_nil _ _ ((getlines_cons_of_ne hc h).symm.trans h')

/-- A newline cuts a text into independent parts. -/
theorem getlines_append_newline (a s : Str) :
    getlines (a ++ '\n' :: s) = pieces a ++ getlines s := by
  induction a with
  | nil => rw [nil_append, getlines_newline]; rfl
  | cons c a ih =>
    obtain ⟨line, lines, h⟩ := exists_cons_of_ne_nil (pieces_ne_nil a)
    have hs : getlines (a ++ '\n' :: s) = line :: (lines ++ getlines s) := by
      rw [ih, h, cons_append]
    by_cases hc : c = '\n'
    · subst hc
      rw [pieces, cons_append, cons_append, getlines_newline, getlines_newline, ih]
      rfl
    · rw [pieces, cons_append, cons_append, getlines_cons_of_ne hc h,
        getlines_cons_of_ne hc hs, cons_append]

/-- The lines of a text that was written line by line. -/
theorem getlines_flatMap (lines : List Str) :
    getlines (lines.flatMap (· ++ ['\n'])) = lines.flatMap pieces := by
  induction lines with
  | nil => rfl
  | cons line lines ih =>
    rw [flatMap_cons, flatMap_cons, append_assoc, singleton_append, getlines_append_newline, ih]

/-- A newline-free text in front goes to the first line. -/
theorem pieces_append (hb : '\n' ∉ b) {a line : Str}
    (h : pieces a = line :: lines) : pieces (b ++ a) = (b ++ line) :: lines := by
  induction b with
  | nil => exact h
  | cons c b ih =>
    obtain ⟨hc, hb⟩ := not_or.mp (fun hm ↦ hb (mem_cons.mpr hm))
    exact getlines_cons_of_ne (Ne.symm hc) (ih hb)

theorem pieces_of_notMem (hb : '\n' ∉ b) : pieces b = [b] := by
  have h : pieces [] = [[]] := rfl
  simpa using pieces_append hb h

/-- **The escapes of the state files**: an escaped text has no newline and no tab, it is read back,
no two texts have the same one, and after a key it ends the line. -/
theorem escapeString_invertible : Function.Injective escapeString ∧ ∀ s : Str,
    '\n' ∉ escapeString s ∧ '\t' ∉ escapeString s ∧ unescapeString (escapeString s) = s ∧
      ∀ key rest : Str, '\n' ∉ key →
        getlines (key ++ escapeString s ++ '\n' :: rest) = (key ++ escapeString s) ::
        getlines rest := by
  have hnewline (s : Str) : '\n' ∉ escapeString s := fun h ↦ (mem_escapeString h).1 rfl
  refine ⟨Function.LeftInverse.injective unescapeString_escapeString, fun s ↦ ⟨hnewline s,
    fun h ↦ (mem_escapeString h).2 rfl, unescapeString_escapeString s, fun key rest hkey ↦ ?_⟩⟩
  have hline : '\n' ∉ key ++ escapeString s := fun h ↦ (mem_append.mp h).elim hkey (hnewline s)
  rw [getlines_append_newline, pieces_of_notMem hline, singleton_append]

theorem pieces_newline (hb : '\n' ∉ b) (a : Str) : pieces (b ++ '\n' :: a) = b :: pieces a := by
  rw [pieces, append_assoc, cons_append, getlines_append_newline, pieces_of_notMem hb]
  rfl

/-- A line of `a ++ b` lies within `a`, or it is the last one and ends in the whole of `b`. -/
theorem mem_pieces_append (hb : '\n' ∉ b) {a p : Str} (h : p ∈ pieces (a ++ b)) :
    p.length ≤ a.length ∨ ∃ a', a'.length ≤ a.length ∧ p = a' ++ b := by
  induction a generalizing p with
  | nil =>
    rw [nil_append, pieces_of_notMem hb, mem_singleton] at h
    exact Or.inr ⟨[], Nat.le_refl _, h⟩
  | cons c a ih =>
    have hstep : ∀ {q : Str}, q ∈ pieces (a ++ b) →
        q.length ≤ (c :: a).length ∨ ∃ a', a'.length ≤ (c :: a).length ∧ q = a' ++ b := by
      intro q hq
      rcases ih hq with hlen | ⟨a', hlen, rfl⟩
      · exact Or.inl (hlen.trans (Nat.le_succ _))
      · exact Or.inr ⟨a', hlen.trans (Nat.le_succ _), rfl⟩
    obtain ⟨line, lines, hl⟩ := exists_cons_of_ne_nil (pieces_ne_nil (a ++ b))
    by_cases hc : c = '\n'
    · subst hc
      rw [pieces, cons_append, cons_append, getlines_newline, mem_cons] at h
      rcases h with rfl | h
      · exact Or.inl (Nat.zero_le _)
      · exact hstep h
    · rw [pieces, cons_append, cons_append, getlines_cons_of_ne hc hl, mem_cons] at h
      rcases h with rfl | h
      · -- the new character goes in front of the first line
        rcases ih (hl ▸ mem_cons_self) with hlen | ⟨a', hlen, rfl⟩
        · exact Or.inl (Nat.succ_le_succ hlen)
        · exact Or.inr ⟨c :: a', Nat.succ_le_succ hlen, rfl⟩
      · exact hstep (hl ▸ mem_cons_of_mem _ h)

/-! ### Numerals of type `int` -/

/-- The whitespace `atoi` skips. -/
def isSpace (c : Char) : Bool := c == ' ' || (9 ≤ c.toNat && c.toNat ≤ 13)

/-- `atoi`: the number `strtol` reads, which saturates at the bounds of `long`, cut down to an
`int`. -/
def atoi (s : Str) : ℤ :=
  match s.dropWhile isSpace with
  | [] => 0
  | c :: t =>
    if c = '-' then Int.bmod (max (-2 ^ 63) (-(readDecimal 0 t : ℤ))) (2 ^ 32)
    else if c = '+' then Int.bmod (min (2 ^ 63 - 1) (readDecimal 0 t : ℤ)) (2 ^ 32)
    else Int.bmod (min (2 ^ 63 - 1) (readDecimal 0 (c :: t) : ℤ)) (2 ^ 32)

/-- The values an `int` can hold. -/
def IsInt32 (n : ℤ) : Prop := -2 ^ 31 ≤ n ∧ n < 2 ^ 31

instance (n : ℤ) : Decidable (IsInt32 n) := inferInstanceAs (Decidable (_ ∧ _))

theorem IsInt32.isInt64 (h : IsInt32 n) : IsInt64 n := by
  obtain ⟨h₁, h₂⟩ := h
  exact ⟨by omega, by omega⟩

theorem IsInt32.bmod_eq (h : IsInt32 n) : Int.bmod n (2 ^ 32) = n := by
  obtain ⟨h₁, h₂⟩ := h
  exact Int.bmod_eq_of_le (by norm_num at *; omega) (by norm_num at *; omega)

/-- An unsigned word, shown as an `int`. -/
theorem isInt32_bmod (n : ℤ) : IsInt32 (Int.bmod n (2 ^ 32)) := by
  have := Int.le_bmod (x := n) (m := 2 ^ 32) (by norm_num)
  have := Int.bmod_lt (x := n) (m := 2 ^ 32) (by norm_num)
  exact ⟨by norm_num at *; omega, by norm_num at *; omega⟩

/-- An unsigned word, shown as an `int` and converted back. -/
theorem bmod_emod_of_lt (h₁ : 0 ≤ n) (h₂ : n < 2 ^ 32) : Int.bmod n (2 ^ 32) % 2 ^ 32 = n := by
  rw [show (2 : ℤ) ^ 32 = ((2 ^ 32 : ℕ) : ℤ) by norm_num, Int.bmod_emod]
  norm_num at *
  omega

theorem digitChar_not_sign {d : ℕ} (h : d < 10) :
    isSpace (Nat.digitChar d) = false ∧ Nat.digitChar d ≠ '-' ∧ Nat.digitChar d ≠ '+' := by
  interval_cases d <;> decide

/-- **`atoi` reads what `%d` prints.** -/
theorem atoi_int64tostr (h : IsInt32 n) (hs : NotDigitHead s) : atoi (int64tostr n ++ s) = n := by
  have hb := h.bmod_eq
  have hread := readDecimal_digitsRev n.natAbs hs
  rw [int64tostr_eq h.isInt64]
  obtain ⟨h₁, h₂⟩ := h
  split
  · have hneg : -(n.natAbs : ℤ) = n := by omega
    have hmax : max (-2 ^ 63) n = n := max_eq_right (by omega)
    rw [append_assoc, singleton_append, atoi, dropWhile_cons_of_neg (by decide)]
    simp only [if_true, hread, hneg, hmax, hb]
  · have hpos : (n.natAbs : ℤ) = n := by omega
    have hmin : min (2 ^ 63 - 1) n = n := min_eq_right (by omega)
    -- the numeral starts with a digit, so neither blanks nor a sign are skipped
    cases hd : (digitsRev n.natAbs).reverse with
    | nil => exact absurd (reverse_eq_nil_iff.mp hd) (digitsRev_ne_nil _)
    | cons c t =>
      have hmem : c ∈ digitsRev n.natAbs := by
        rw [← mem_reverse, hd]
        exact mem_cons_self
      obtain ⟨d, hlt, rfl⟩ := mem_digitsRev hmem
      obtain ⟨hsp, hminus, hplus⟩ := digitChar_not_sign hlt
      rw [hd, cons_append] at hread
      rw [nil_append, atoi, cons_append, dropWhile_cons_of_neg (by rw [hsp]; decide)]
      simp only [hminus, hplus, if_false]
      rw [hread, hpos, hmin, hb]

/-! ### Key/value lines -/

/-- What `loadKeyValue` finds on a line. -/
structure KeyValue where
  key : Str
  index : ℤ
  value : Str
  deriving DecidableEq, Repr

/-- The part of a line's first word before a `[`, which becomes the key. -/
def keyOf (word : Str) : Str := word.takeWhile (· != '[')

/-- The index in a line's first word, 0 when it has none. -/
def indexOf (word : Str) : ℤ :=
  match word.dropWhile (· != '[') with
  | [] => 0
  | _ :: rest => atoi rest

/-- `loadKeyValue`. Blank lines and comments have no key. A line with no blank after the key has
an empty value, because the reader has overwritten the newline. -/
def loadKeyValue (line : Str) : Option KeyValue :=
  match skipWhitespace line with
  | [] => none
  | '#' :: _ => none
  | ptr =>
    let word := ptr.takeWhile fun c ↦ !isBlank c
    some { key := keyOf word, index := indexOf word,
           value := unescapeString (skipUntilWhitespace ptr).tail }

/-- The value on a line is taken from the end of the line, without its first character. -/
theorem loadKeyValue_value {line : Str} {kv : KeyValue} (h : loadKeyValue line = some kv) :
    ∃ q, q <:+ line.tail ∧ kv.value = unescapeString q := by
  unfold loadKeyValue at h
  have hsuf : skipWhitespace line <:+ line := dropWhile_suffix _
  split at h
  · simp at h
  · simp at h
  · next ptr hnil _ =>
    refine ⟨(skipUntilWhitespace (skipWhitespace line)).tail, ?_,
      (congrArg _ (Option.some.inj h)).symm⟩
    obtain ⟨t, ht⟩ : skipUntilWhitespace (skipWhitespace line) <:+ line :=
      (dropWhile_suffix _).trans hsuf
    cases t with
    | nil =>
      rw [nil_append] at ht
      exact ⟨[], congrArg List.tail ht⟩
    | cons c t =>
      conv_rhs => rw [← ht]
      exact (tail_suffix _).trans (suffix_append _ _)

theorem loadKeyValue_line (hword : ∀ c ∈ word, isBlank c = false)
    (hhead : ∀ t, word ≠ '#' :: t) (hne : word ≠ []) (raw : Str) :
    loadKeyValue (word ++ ' ' :: raw) =
      some { key := keyOf word, index := indexOf word, value := unescapeString raw } := by
  have hskip : skipWhitespace (word ++ ' ' :: raw) = word ++ ' ' :: raw := by
    cases word with
    | nil => exact absurd rfl hne
    | cons c t => exact skipWhitespace_cons_of_not_blank (hword c mem_cons_self) _
  have htake : (word ++ ' ' :: raw).takeWhile (fun c ↦ !isBlank c) = word := by
    rw [takeWhile_append_of_pos (fun c hc ↦ by rw [hword c hc]; rfl),
      takeWhile_cons_of_neg (by decide), append_nil]
  have hdrop : skipUntilWhitespace (word ++ ' ' :: raw) = ' ' :: raw := by
    rw [skipUntilWhitespace, dropWhile_append_of_pos (fun c hc ↦ by rw [hword c hc]; rfl),
      dropWhile_cons_of_neg (by decide)]
  unfold loadKeyValue
  rw [hskip]
  split
  · next h => simp at h
  · next h =>
    cases word with
    | nil => exact absurd rfl hne
    | cons c t => exact absurd (congrArg (· :: t) (List.cons.inj h).1) (hhead t)
  · rw [htake, hdrop]
    rfl

theorem bne_bracket_of_notMem (h : '[' ∉ word) : ∀ c ∈ word, (c != '[') = true :=
  fun _ hc ↦ bne_iff_ne.mpr fun he ↦ h (he ▸ hc)

theorem keyOf_of_notMem (h : '[' ∉ word) : keyOf word = word :=
  takeWhile_eq_self_iff.mpr (bne_bracket_of_notMem h)

theorem indexOf_of_notMem (h : '[' ∉ word) : indexOf word = 0 := by
  rw [indexOf, dropWhile_eq_nil_iff.mpr (bne_bracket_of_notMem h)]

/-- The word `name[i]`. -/
def indexedKey (name : Str) (i : ℕ) : Str := name ++ '[' :: (int64tostr i ++ [']'])

theorem keyOf_indexedKey (h : '[' ∉ name) (i : ℕ) : keyOf (indexedKey name i) = name := by
  rw [keyOf, indexedKey, takeWhile_append_of_pos (bne_bracket_of_notMem h),
    takeWhile_cons_of_neg (by decide), append_nil]

theorem indexOf_indexedKey (h : '[' ∉ name) {i : ℕ} (hi : i < 2 ^ 31) :
    indexOf (indexedKey name i) = i := by
  have hdrop : (indexedKey name i).dropWhile (· != '[') = '[' :: (int64tostr i ++ [']']) := by
    rw [indexedKey, dropWhile_append_of_pos (bne_bracket_of_notMem h),
      dropWhile_cons_of_neg (by decide)]
  have hint : IsInt32 i := ⟨by omega, by omega⟩
  have hstop : NotDigitHead [']'] := by
    intro c t hc
    rw [← (List.cons.inj hc).1]
    decide
  rw [indexOf, hdrop]
  exact atoi_int64tostr hint hstop

end Jers
